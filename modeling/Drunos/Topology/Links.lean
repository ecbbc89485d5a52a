/-
# Drunos.Topology.Links — the links of Topology and the edges of its graph

`Topology.cc` keeps each link twice: as an edge of its graph and as a `Link` object in
`topo`. A discovered link goes into both, unless its two ends are on one switch. A
broken link is removed from the graph by its two switches, and from `topo` by its
two ports; `corresponds_iff` says when the two agree with the links announced.
-/
import Drunos.Topology.Graph
import Drunos.Rest.EventManager
import Drunos.Theory.Run
import Mathlib.Data.Sym.Sym2
import Mathlib.Data.Finset.Filter

namespace Drunos.Topology

open Drunos.Theory.Run

set_option autoImplicit false

structure Link where
  /-- The object: links are compared as pointers. -/
  object : Nat
  source : SwitchAndPort
  target : SwitchAndPort
  weight : Nat
  id : Nat
  deriving DecidableEq

/-- The class `Topology` with its `TopologyImpl`. -/
structure TopologyState where
  graph : TopologyGraph := {}
  topo : List Link := []
  /-- What has been handed to `addEvent`; `none` is the null pointer. -/
  events : List (Rest.EventType × Option Link) := []
  /-- The next object `new` returns. -/
  nextObject : Nat := 0

namespace TopologyState

def getLink (source target : SwitchAndPort) (t : TopologyState) : Option Link :=
  t.topo.find? fun it =>
    (it.source = source && it.target = target) || (it.source = target && it.target = source)

def addEvent (type : Rest.EventType) (link : Option Link) (t : TopologyState) : TopologyState :=
  { t with events := t.events ++ [(type, link)] }

/-- `rand` is what `rand()` returns. -/
def linkDiscovered [AdjacencyList] (source target : SwitchAndPort) (rand : Nat) (t : TopologyState) : TopologyState :=
  if source.dpid = target.dpid then t
  else
    let graph := ((t.graph.vertex source.dpid).vertex target.dpid).addEdge ⟨source, target⟩
    let link : Link := ⟨t.nextObject, source, target, 5, rand % 1000 + 2000⟩
    addEvent .add (some link)
      { t with graph := graph, topo := t.topo ++ [link], nextObject := t.nextObject + 1 }

def linkBroken [AdjacencyList] (source target : SwitchAndPort) (t : TopologyState) : TopologyState :=
  let graph := ((t.graph.vertex source.dpid).vertex target.dpid).removeEdge source.dpid target.dpid
  let link := t.getLink source target
  let t := { t with graph := graph }.addEvent .delete link
  { t with topo := t.topo.filter fun it => link.map Link.object ≠ some it.object }

/-! ## The links announced -/

/-- The two signals `Topology` listens to. -/
inductive LinkSignal where
  | discovered (source target : SwitchAndPort) (rand : Nat)
  | broken (source target : SwitchAndPort)

/-- A link by its two end ports, in either order. -/
abbrev Ends := Sym2 SwitchAndPort

/-- The switches of the two ends. -/
def switches (e : Ends) : Sym2 (BitVec 64) := e.map SwitchAndPort.dpid

/-- Both ends are on one switch. -/
def IsLoop (e : Ends) : Prop := (switches e).IsDiag

instance : DecidablePred IsLoop := fun e => inferInstanceAs (Decidable (switches e).IsDiag)

/-- `Topology` with the links discovered and not yet broken. -/
structure Watched where
  topology : TopologyState := {}
  live : Finset Ends := ∅

def watch [AdjacencyList] (w : Watched) : LinkSignal → Watched
  | .discovered source target rand =>
      ⟨w.topology.linkDiscovered source target rand, insert s(source, target) w.live⟩
  | .broken source target => ⟨w.topology.linkBroken source target, w.live.erase s(source, target)⟩

/-- A link is broken only while it is discovered and not yet broken. -/
def BrokenIsLive (w : Watched) : LinkSignal → Prop
  | .discovered .. => True
  | .broken source target => s(source, target) ∈ w.live

def edgeEnds (edges : List LinkProperty) : Multiset Ends :=
  edges.map fun l => s(l.source, l.target)

def linkEnds (topo : List Link) : Multiset Ends := topo.map fun l => s(l.source, l.target)

/-- The links between different switches, each once. -/
def Watched.between (w : Watched) : Multiset Ends := (w.live.filter fun e => ¬IsLoop e).val

/-- Edges, entries and live links are the same, and all events have a link. -/
structure Watched.Agrees (w : Watched) : Prop where
  graph : edgeEnds w.topology.graph.edges = w.between
  topo : linkEnds w.topology.topo = w.between
  events : ∀ e ∈ w.topology.events, e.2.isSome = true

/-- The event leaves the two stores and the live links in agreement. -/
def Corresponds [AdjacencyList] (w : Watched) (signal : LinkSignal) : Prop := (watch w signal).Agrees

/-- A link between two switches is discovered while it is not live; it is broken
while no other link is live between them. -/
def Separate (w : Watched) : LinkSignal → Prop
  | .discovered source target _ => source.dpid ≠ target.dpid → s(source, target) ∉ w.live
  | .broken source target => source.dpid ≠ target.dpid ∧
      ∀ e ∈ w.live, switches e = s(source.dpid, target.dpid) → e = s(source, target)

instance (w : Watched) : DecidablePred (BrokenIsLive w)
  | .discovered .. => .isTrue trivial
  | .broken source target => inferInstanceAs (Decidable (s(source, target) ∈ w.live))

instance (w : Watched) : DecidablePred (Separate w)
  | .discovered source target _ =>
      inferInstanceAs (Decidable (source.dpid ≠ target.dpid → s(source, target) ∉ w.live))
  | .broken source target =>
      inferInstanceAs (Decidable (source.dpid ≠ target.dpid ∧
        ∀ e ∈ w.live, switches e = s(source.dpid, target.dpid) → e = s(source, target)))

/-- Objects are made once. -/
structure Watched.Good (w : Watched) : Prop where
  agrees : w.Agrees
  distinct : (w.topology.topo.map Link.object).Nodup
  made : ∀ l ∈ w.topology.topo, l.object < w.topology.nextObject

theorem Watched.Good.initial : Watched.Good {} :=
  ⟨⟨rfl, rfl, fun _ mem => absurd mem List.not_mem_nil⟩, List.nodup_nil,
    fun _ mem => absurd mem List.not_mem_nil⟩

variable {w : Watched} {source target : SwitchAndPort}

@[simp] theorem switches_mk (a b : SwitchAndPort) : switches s(a, b) = s(a.dpid, b.dpid) := rfl

@[simp] theorem isLoop_mk {a b : SwitchAndPort} : IsLoop s(a, b) ↔ a.dpid = b.dpid :=
  Sym2.mk_isDiag_iff

theorem joins_iff_switches (l : LinkProperty) (u v : BitVec 64) :
    l.joins u v = true ↔ switches s(l.source, l.target) = s(u, v) := by
  rw [LinkProperty.joins_iff, switches_mk, Sym2.eq_iff]

/-- Removing the edges between two switches, as removing their ends. -/
theorem edgeEnds_removeEdge [AdjacencyList] (g : TopologyGraph) (u v : BitVec 64) :
    edgeEnds (g.removeEdge u v).edges =
      (edgeEnds g.edges).filter fun e => ¬switches e = s(u, v) := by
  have removed : ((g.removeEdge u v).edges : Multiset LinkProperty) =
      (g.edges.filter fun l => !l.joins u v : List LinkProperty) :=
    Multiset.coe_eq_coe.mpr (AdjacencyList.removeEdge_perm u v g.edges)
  rw [edgeEnds, edgeEnds, ← Multiset.map_coe, removed, Multiset.map_coe, Multiset.filter_coe,
    List.filter_map]
  congr 2
  refine List.filter_congr fun l _ => ?_
  have joins := joins_iff_switches l u v
  rw [Bool.eq_iff_iff]
  simp only [Function.comp_apply, Bool.not_eq_true', decide_eq_true_eq, ← joins,
    Bool.not_eq_true]

theorem mem_between {e : Ends} : e ∈ w.between ↔ e ∈ w.live ∧ ¬IsLoop e := by
  rw [Watched.between, Finset.mem_val, Finset.mem_filter]

theorem getLink_some {t : TopologyState} {link : Link} (found : t.getLink source target = some link) :
    link ∈ t.topo ∧ s(link.source, link.target) = s(source, target) := by
  refine ⟨List.mem_of_find?_eq_some found, ?_⟩
  have same := List.find?_some found
  rw [Sym2.eq_iff]
  simpa using same

theorem getLink_isSome {t : TopologyState} :
    (t.getLink source target).isSome = true ↔ s(source, target) ∈ linkEnds t.topo := by
  rw [getLink, List.find?_isSome, linkEnds, Multiset.mem_coe, List.mem_map]
  refine exists_congr fun l => and_congr_right fun _ => ?_
  rw [Sym2.eq_iff]
  simp

/-- Removing an object from `topo` removes its one entry. -/
theorem linkEnds_remove (good : w.Good) {link : Link} (mem : link ∈ w.topology.topo) :
    linkEnds w.topology.topo = s(link.source, link.target) ::ₘ
      linkEnds (w.topology.topo.filter fun it => some link.object ≠ some it.object) := by
  have rest : w.topology.topo.erase link =
      w.topology.topo.filter fun it => some link.object ≠ some it.object := by
    rw [(List.Nodup.of_map _ good.distinct).erase_eq_filter link]
    refine List.filter_congr fun l other => ?_
    have same : l = link ↔ link.object = l.object :=
      ⟨fun same => by rw [same],
        fun same => (List.inj_on_of_nodup_map good.distinct mem other same).symm⟩
    rw [Bool.eq_iff_iff]
    simp [same]
  rw [← rest, linkEnds, linkEnds, Multiset.cons_coe, Multiset.coe_eq_coe]
  exact (List.perm_cons_erase mem).map fun l => s(l.source, l.target)

/-! ## One signal -/

/-- Discovering a link between two switches adds its ends to both stores. -/
theorem discovered_ends [AdjacencyList] (t : TopologyState) (different : source.dpid ≠ target.dpid) (rand : Nat) :
    edgeEnds (t.linkDiscovered source target rand).graph.edges =
        s(source, target) ::ₘ edgeEnds t.graph.edges ∧
      linkEnds (t.linkDiscovered source target rand).topo =
        s(source, target) ::ₘ linkEnds t.topo := by
  simp only [linkDiscovered, if_neg different, addEvent, TopologyGraph.addEdge,
    TopologyGraph.vertex_edges, edgeEnds, linkEnds, List.map_append, List.map_cons, List.map_nil,
    Multiset.cons_coe, Multiset.coe_eq_coe]
  exact ⟨(AdjacencyList.addEdge_perm _ _).map fun l => s(l.source, l.target),
    List.perm_append_singleton _ _⟩

theorem discovered_good_iff [AdjacencyList] (good : w.Good) (rand : Nat) :
    (Corresponds w (.discovered source target rand) ↔ Separate w (.discovered source target rand)) ∧
      (Separate w (.discovered source target rand) →
        (watch w (.discovered source target rand)).Good) := by
  by_cases loop : source.dpid = target.dpid
  · have same : (watch w (.discovered source target rand)).Good := by
      have between : (watch w (.discovered source target rand)).between = w.between := by
        simp [Watched.between, watch, Finset.filter_insert, loop]
      have stores : (watch w (.discovered source target rand)).topology = w.topology := by
        simp [watch, linkDiscovered, loop]
      refine ⟨⟨?_, ?_, ?_⟩, ?_, ?_⟩
      · rw [stores, between, good.agrees.graph]
      · rw [stores, between, good.agrees.topo]
      · rw [stores]; exact good.agrees.events
      · rw [stores]; exact good.distinct
      · rw [stores]; exact good.made
    exact ⟨⟨fun _ different => absurd loop different, fun _ => same.agrees⟩, fun _ => same⟩
  · obtain ⟨edges, links⟩ := discovered_ends w.topology loop rand
    have notLoop : ¬IsLoop s(source, target) := by simpa using loop
    by_cases live : s(source, target) ∈ w.live
    · refine ⟨⟨fun agrees => ?_, fun separate => absurd live (separate loop)⟩,
        fun separate => absurd live (separate loop)⟩
      -- the graph gets a second edge, but the link is live once
      have twice : edgeEnds (watch w (.discovered source target rand)).topology.graph.edges =
          s(source, target) ::ₘ w.between := by rw [← good.agrees.graph]; exact edges
      have once : (watch w (.discovered source target rand)).between = w.between := by
        simp [Watched.between, watch, live]
      have count := agrees.graph.symm.trans twice
      rw [once] at count
      exact absurd (congrArg Multiset.card count) (by simp)
    · have added : (watch w (.discovered source target rand)).between =
          s(source, target) ::ₘ w.between := by
        simp [Watched.between, watch, Finset.filter_insert, notLoop, live]
      have result : (watch w (.discovered source target rand)).Good := by
        refine ⟨⟨?_, ?_, ?_⟩, ?_, ?_⟩
        · rw [added, ← good.agrees.graph]
          exact edges
        · rw [added, ← good.agrees.topo]
          exact links
        · intro e mem
          simp only [watch, linkDiscovered, if_neg loop, addEvent, List.mem_append,
            List.mem_singleton] at mem
          rcases mem with old | rfl
          · exact good.agrees.events e old
          · rfl
        · simp only [watch, linkDiscovered, if_neg loop, addEvent, List.map_append, List.map_cons,
            List.map_nil]
          refine List.nodup_append.mpr ⟨good.distinct, List.nodup_singleton _, ?_⟩
          rintro _ old _ new rfl
          obtain ⟨l, mem, same⟩ := List.mem_map.mp old
          have before := good.made l mem
          rw [same, List.mem_singleton.mp new] at before
          exact absurd before (lt_irrefl _)
        · intro l mem
          simp only [watch, linkDiscovered, if_neg loop, addEvent, List.mem_append,
            List.mem_singleton] at mem ⊢
          rcases mem with old | rfl
          · exact Nat.lt_succ_of_lt (good.made l old)
          · exact Nat.lt_succ_self _
      exact ⟨⟨fun _ _ => live, fun _ => result.agrees⟩, fun _ => result⟩

/-- The links that are left between different switches when one is broken. -/
theorem between_broken [AdjacencyList] :
    (watch w (.broken source target)).between = w.between.erase s(source, target) := by
  rw [Watched.between, Watched.between, ← Finset.erase_val]
  congr 1
  exact Finset.filter_erase ..

/-- Removing all edges between two switches removes one link if it is the only one. -/
theorem only_between (different : source.dpid ≠ target.dpid) :
    (w.between.filter fun e => ¬switches e = s(source.dpid, target.dpid)) =
        w.between.erase s(source, target) ↔
      ∀ e ∈ w.live, switches e = s(source.dpid, target.dpid) → e = s(source, target) := by
  have nodup : w.between.Nodup := (w.live.filter fun e => ¬IsLoop e).nodup
  constructor
  · intro same e mem joins
    by_contra other
    have notLoop : ¬IsLoop e := by
      rw [IsLoop, joins, Sym2.mk_isDiag_iff]
      exact different
    have kept : e ∈ w.between.erase s(source, target) :=
      (nodup.mem_erase_iff).mpr ⟨other, mem_between.mpr ⟨mem, notLoop⟩⟩
    rw [← same, Multiset.mem_filter] at kept
    exact kept.2 joins
  · intro only
    refine (Multiset.Nodup.ext (nodup.filter _) (nodup.erase _)).mpr fun e => ?_
    rw [Multiset.mem_filter, nodup.mem_erase_iff, and_comm]
    refine and_congr_left fun mem => not_congr ⟨only e (mem_between.mp mem).1, ?_⟩
    rintro rfl
    rfl

theorem broken_good_iff [AdjacencyList] (good : w.Good) (live : s(source, target) ∈ w.live) :
    (Corresponds w (.broken source target) ↔ Separate w (.broken source target)) ∧
      (Separate w (.broken source target) → (watch w (.broken source target)).Good) := by
  by_cases loop : source.dpid = target.dpid
  · refine ⟨⟨fun agrees => ?_, fun separate => absurd loop separate.1⟩,
      fun separate => absurd loop separate.1⟩
    -- a loop has no entry, so the event gets the null pointer
    have absent : w.topology.getLink source target = none := by
      rw [← Option.not_isSome_iff_eq_none, getLink_isSome, good.agrees.topo, mem_between]
      exact fun both => both.2 (isLoop_mk.mpr loop)
    have null := agrees.events (.delete, none)
      (by simp [watch, linkBroken, addEvent, absent])
    cases null
  · have here : s(source, target) ∈ w.between := mem_between.mpr ⟨live, by simpa using loop⟩
    obtain ⟨link, found⟩ := Option.isSome_iff_exists.mp
      (getLink_isSome.mpr (good.agrees.topo ▸ here))
    obtain ⟨mem, ends⟩ := getLink_some found
    have edges : edgeEnds (watch w (.broken source target)).topology.graph.edges =
        w.between.filter fun e => ¬switches e = s(source.dpid, target.dpid) := by
      rw [← good.agrees.graph, ← edgeEnds_removeEdge]
      simp [watch, linkBroken, addEvent, TopologyGraph.removeEdge]
    have links : linkEnds (watch w (.broken source target)).topology.topo =
        w.between.erase s(source, target) := by
      rw [← good.agrees.topo, linkEnds_remove good mem, ends, Multiset.erase_cons_head]
      simp [watch, linkBroken, addEvent, found]
    have result : Separate w (.broken source target) → (watch w (.broken source target)).Good := by
      intro separate
      refine ⟨⟨?_, ?_, ?_⟩, ?_, ?_⟩
      · rw [edges, between_broken, (only_between loop).mpr separate.2]
      · rw [links, between_broken]
      · intro e mem
        simp only [watch, linkBroken, addEvent, List.mem_append, List.mem_singleton] at mem
        rcases mem with old | rfl
        · exact good.agrees.events e old
        · simp [found]
      · exact good.distinct.sublist (List.filter_sublist.map _)
      · exact fun l mem => good.made l (List.mem_filter.mp mem).1
    refine ⟨⟨fun agrees => ⟨loop, ?_⟩, fun separate => (result separate).agrees⟩, result⟩
    have graph := agrees.graph
    rw [edges, between_broken] at graph
    exact (only_between loop).mp graph

/-! ## Whole runs -/

theorem watch_good_iff [AdjacencyList] (good : w.Good) {signal : LinkSignal} (valid : BrokenIsLive w signal) :
    (Corresponds w signal ↔ Separate w signal) ∧ (Separate w signal → (watch w signal).Good) := by
  cases signal with
  | discovered source target rand => exact discovered_good_iff good rand
  | broken source target => exact broken_good_iff good valid

/-- **Along a run in which links are broken only while they are live, the graph and the
list of links agree with the live links, and every event has its link, exactly when no
live link is discovered again, no loop is broken, and no link is broken while another
one joins the same switches.** -/
theorem corresponds_iff [AdjacencyList] {signals : List LinkSignal} (valid : Each watch BrokenIsLive {} signals) :
    Each watch Corresponds {} signals ↔ Each watch Separate {} signals := by
  suffices run : ∀ (signals : List LinkSignal) (w : Watched), w.Good →
      Each watch BrokenIsLive w signals →
      (Each watch Corresponds w signals ↔ Each watch Separate w signals) from
    run signals {} .initial valid
  intro signals
  induction signals with
  | nil => exact fun _ _ _ => Iff.rfl
  | cons signal signals ih =>
      rintro w good ⟨valid, rest⟩
      obtain ⟨step, kept⟩ := watch_good_iff good valid
      simp only [each_cons, step]
      exact and_congr_right fun separate => ih (watch w signal) (kept separate) rest

open scoped EdgeList in
/-- A link is discovered, broken and discovered again. -/
theorem corresponds_rediscovered :
    Each watch Corresponds {}
      [.discovered ⟨1, 1⟩ ⟨2, 1⟩ 0, .broken ⟨1, 1⟩ ⟨2, 1⟩, .discovered ⟨1, 1⟩ ⟨2, 1⟩ 0] :=
  (corresponds_iff (by decide)).mpr (by decide)

/-- Two cables between switches 1 and 2, one of which is unplugged. -/
def parallelCables : List LinkSignal :=
  [.discovered ⟨1, 1⟩ ⟨2, 1⟩ 0, .discovered ⟨1, 2⟩ ⟨2, 2⟩ 0, .broken ⟨1, 1⟩ ⟨2, 1⟩]

open scoped EdgeList in
/-- The other cable is gone from the graph, too. -/
theorem parallelCables_lost :
    Each watch BrokenIsLive {} parallelCables ∧ ¬Each watch Corresponds {} parallelCables := by
  refine ⟨by decide, ?_⟩
  rintro ⟨-, -, agrees, -⟩
  have edges : edgeEnds (watch (watch (watch {} (.discovered ⟨1, 1⟩ ⟨2, 1⟩ 0))
      (.discovered ⟨1, 2⟩ ⟨2, 2⟩ 0)) (.broken ⟨1, 1⟩ ⟨2, 1⟩)).topology.graph.edges = 0 := by
    decide
  have links := agrees.graph.symm.trans edges
  revert links
  decide

end TopologyState

end Drunos.Topology
