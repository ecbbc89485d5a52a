/-
# Drunos.Topology.Flood — broadcast packets on their way

The switches run `broadcastPolicy` of one network state, and the cables carry what they send
to the next switch. Packets in flight are taken in one at a time, in any order. Each step is
one of `Theory.Flooding` at the ports the packets come in at (`Takes.floods`), and the links
with both ports enabled are a forest (`Settled.forest`). So a broadcast never comes to a
switch twice (`broadcast_once`), and after the timer has computed the tree it comes to every
switch that the known links connect with the first one (`broadcast_everywhere`).
-/
import Drunos.Theory.Flooding
import Drunos.Topology.LoopFree

namespace Drunos.Topology

open Drunos.Oxm Drunos.Retic Drunos.Theory Drunos.Theory.Run Relation
open scoped Drunos.Oxm.OpenflowBasic

set_option autoImplicit false

def outPortOf (x : Packet) : BitVec 32 := x outPort

/-- Where the packet comes in. -/
def placeOf (x : Packet) : SwitchAndPort := ⟨switchIdOf x, inPortOf x⟩

/-- Where the packet is sent out. -/
def exitOf (x : Packet) : SwitchAndPort := ⟨switchIdOf x, outPortOf x⟩

/-- The packet as it comes in at the other end of a cable. -/
def arriveAt (p : SwitchAndPort) (x : Packet) : Packet :=
  (x.modify (switchIdIs p.dpid)).modify (inPortIs p.port)

/-- The packets agree in all that does not say where they are. -/
def SameContent (x y : Packet) : Prop :=
  ∀ t, t ≠ switchId → t ≠ inPort → t ≠ outPort → y t = x t

/-! ## Packets in flight -/

/-- A broadcast: the packets about to come in at a switch, the switches that have taken one in
at an enabled port, and the packets that have left for no other switch. -/
structure Broadcast where
  flight : Multiset Packet
  handled : List (BitVec 64) := []
  delivered : Multiset Packet := 0

/-- What becomes of a packet that is sent over the cables. -/
def carry (cabling : SwitchAndPort → Option SwitchAndPort) (y : Packet) : Option Packet :=
  (cabling (exitOf y)).map fun p => arriveAt p y

/-- The switch a packet in flight goes to takes it in. -/
inductive Takes (stp : STP) (cabling : SwitchAndPort → Option SwitchAndPort) :
    Packet → Broadcast → Broadcast → Prop
  | takenIn (x : Packet) (rest : Multiset Packet) (handled : List (BitVec 64))
      (delivered : Multiset Packet) :
      Takes stp cabling x ⟨x ::ₘ rest, handled, delivered⟩
        { flight := rest + ((broadcastPolicy stp.switchList).outputs x).filterMap (carry cabling)
          handled := if stp.enabled (placeOf x) then switchIdOf x :: handled else handled
          delivered := delivered +
            ((broadcastPolicy stp.switchList).outputs x).filter fun y => cabling (exitOf y) = none }

/-- The packets are taken in one after the other. -/
inductive Floods (stp : STP) (cabling : SwitchAndPort → Option SwitchAndPort) :
    Broadcast → List Packet → Broadcast → Prop
  | nil (b : Broadcast) : Floods stp cabling b [] b
  | cons {b next last : Broadcast} {x : Packet} {xs : List Packet} :
      Takes stp cabling x b next → Floods stp cabling next xs last →
        Floods stp cabling b (x :: xs) last

/-- Every cable between enabled ports is a known link. -/
structure Cabled (s : Network) (cabling : SwitchAndPort → Option SwitchAndPort) : Prop where
  symm : ∀ {p q}, cabling p = some q → cabling q = some p
  known : ∀ {p q}, cabling p = some q → s.stp.enabled p = true → s.stp.enabled q = true →
    Linked s.links p q

/-! ## The packets of the policy -/

section

variable {x y z : Packet} {p : SwitchAndPort}

theorem modify_exactly (x : Packet) (t : OxmType) (v : BitVec (nbits t)) :
    x.modify (.exactly t v) t = v := by
  simp [Packet.modify, Field.exactly]

theorem modify_of_ne (x : Packet) {f : Field} {t : OxmType} (ne : t ≠ f.type) : x.modify f t = x t :=
  Function.update_of_ne ne _ _

@[simp] theorem switchIdOf_switchIdIs (d : BitVec 64) : switchIdOf (x.modify (switchIdIs d)) = d :=
  modify_exactly x switchId d

@[simp] theorem switchIdOf_inPortIs (port : BitVec 32) :
    switchIdOf (x.modify (inPortIs port)) = switchIdOf x :=
  modify_of_ne x (show switchId ≠ inPort by decide)

@[simp] theorem inPortOf_inPortIs (port : BitVec 32) : inPortOf (x.modify (inPortIs port)) = port :=
  modify_exactly x inPort port

@[simp] theorem switchIdOf_outPortIs (port : BitVec 32) :
    switchIdOf (x.modify (outPortIs port)) = switchIdOf x :=
  modify_of_ne x (show switchId ≠ outPort by decide)

@[simp] theorem outPortOf_outPortIs (port : BitVec 32) : outPortOf (x.modify (outPortIs port)) = port :=
  modify_exactly x outPort port

@[simp] theorem placeOf_arriveAt : placeOf (arriveAt p x) = p := by
  simp [placeOf, arriveAt]

@[simp] theorem exitOf_outPortIs (port : BitVec 32) :
    exitOf (x.modify (outPortIs port)) = ⟨switchIdOf x, port⟩ := by
  simp [exitOf]

theorem SameContent.refl (x : Packet) : SameContent x x := fun _ _ _ _ => rfl

theorem SameContent.trans (first : SameContent x y) (second : SameContent y z) : SameContent x z :=
  fun t a b c => (second t a b c).trans (first t a b c)

theorem sameContent_outPortIs (port : BitVec 32) : SameContent x (x.modify (outPortIs port)) :=
  fun _ _ _ noOut => modify_of_ne x noOut

theorem sameContent_arriveAt : SameContent x (arriveAt p x) :=
  fun _ noSwitch noIn _ => (modify_of_ne _ noIn).trans (modify_of_ne x noSwitch)

end

/-- The ports of a switch that a broadcast is sent out of. -/
def STP.enabledPorts (stp : STP) (d : BitVec 64) : List (BitVec 32) :=
  ((stp.switchList.find d).map SwitchSTP.getEnabledPorts).getD []

theorem STP.enabledPorts_nodup (stp : STP) (d : BitVec 64) : (stp.enabledPorts d).Nodup := by
  unfold STP.enabledPorts
  cases stp.switchList.find d with
  | none => exact List.nodup_nil
  | some sw => exact sw.getEnabledPorts_nodup

theorem STP.mem_enabledPorts {stp : STP} {p : SwitchAndPort} :
    p.port ∈ stp.enabledPorts p.dpid ↔ stp.enabled p = true := by
  unfold STP.enabledPorts STP.enabled
  cases stp.switchList.find p.dpid <;> simp

theorem SwitchList.find_iff {l : SwitchList} {d : BitVec 64} {sw : SwitchSTP} :
    l.find d = some sw ↔ (d, sw) ∈ l.entries := by
  have nodup := l.nodup
  unfold SwitchList.find
  generalize l.entries = entries at nodup
  induction entries with
  | nil => simp
  | cons e entries ih =>
      obtain ⟨new, nodup⟩ := List.nodup_cons.mp nodup
      by_cases here : e.1 = d
      · have other : (d, sw) ∉ entries := fun mem => new (here ▸ List.mem_map_of_mem mem)
        rw [List.find?_cons_of_pos (by simpa using here)]
        simp only [List.mem_cons, other, or_false, Prod.ext_iff, here, true_and]
        exact ⟨fun same => (Option.some.inj same).symm, fun same => congrArg some same.symm⟩
      · rw [List.find?_cons_of_neg (by simpa using here)]
        refine (ih nodup).trans ?_
        simp [Prod.ext_iff, Ne.symm here]

/-- The policy sends a copy out of each enabled port but the one the packet came in at, if that
is enabled. -/
theorem broadcastPolicy_copies (stp : STP) (x : Packet) :
    (broadcastPolicy stp.switchList).outputs x =
      if stp.enabled (placeOf x) then
        .ofList (((stp.enabledPorts (switchIdOf x)).filter (· ≠ inPortOf x)).map fun outP =>
          x.modify (outPortIs outP))
      else 0 := by
  obtain ⟨one, nothing⟩ := sum_map_key Prod.fst
    (fun entry : BitVec 64 × SwitchSTP => (onSwitch entry.2).outputs x) (switchIdOf x)
    stp.switchList.nodup
  have sum : (broadcastPolicy stp.switchList).outputs x = (stp.switchList.entries.map fun entry =>
      if switchIdOf x = entry.1 then (onSwitch entry.2).outputs x else 0).sum := by
    rw [broadcastPolicy, Policy.outputs_foldl_add, Policy.outputs, zero_add]
    simp only [Policy.outputs_filter_sequential, test_switchIdIs]
  have enabled : stp.enabled (placeOf x) = true ↔ inPortOf x ∈ stp.enabledPorts (switchIdOf x) :=
    STP.mem_enabledPorts.symm
  rw [sum]
  cases found : stp.switchList.find (switchIdOf x) with
  | none =>
      have ports : stp.enabledPorts (switchIdOf x) = [] := by simp [STP.enabledPorts, found]
      rw [if_neg (by simp [enabled, ports])]
      refine nothing fun entry mem same => ?_
      rw [SwitchList.find_iff.mpr (same ▸ mem : (switchIdOf x, entry.2) ∈ _)] at found
      cases found
  | some sw =>
      have ports : stp.enabledPorts (switchIdOf x) = sw.getEnabledPorts := by
        simp [STP.enabledPorts, found]
      rw [one _ (SwitchList.find_iff.mp found) rfl]
      simp only [enabled, ports]
      split
      · exact (onSwitch_outputs sw x).1 ‹_›
      · exact (onSwitch_outputs sw x).2 ‹_›

/-! ## Packets and the ports they come in at -/

/-- The switches, their enabled ports and the cables. -/
def netOf (stp : STP) {cabling : SwitchAndPort → Option SwitchAndPort}
    (symm : ∀ {p q}, cabling p = some q → cabling q = some p) :
    Flooding.Net (BitVec 64) SwitchAndPort where
  node := SwitchAndPort.dpid
  peer := cabling
  ports d := ((stp.enabledPorts d).map fun port => ⟨d, port⟩).toFinset
  peer_symm := symm
  node_of_mem := by
    intro d p mem
    obtain ⟨port, -, rfl⟩ := List.mem_map.mp (List.mem_toFinset.mp mem)
    rfl

section

variable {stp : STP} {cabling : SwitchAndPort → Option SwitchAndPort}
  {symm : ∀ {p q}, cabling p = some q → cabling q = some p}

theorem open_iff {p : SwitchAndPort} : (netOf stp symm).Open p ↔ stp.enabled p = true := by
  rw [← STP.mem_enabledPorts]
  simp only [Flooding.Net.Open, netOf, List.mem_toFinset, List.mem_map]
  constructor
  · rintro ⟨port, mem, same⟩
    rw [← same]
    exact mem
  · exact fun mem => ⟨p.port, mem, rfl⟩

instance : DecidablePred (netOf stp symm).Open := fun _ => decidable_of_iff _ open_iff.symm

/-- What the packets of a broadcast say of its course. -/
def project (b : Broadcast) : Flooding.State (BitVec 64) SwitchAndPort where
  flight := b.flight.map placeOf
  handled := b.handled
  delivered := b.delivered.map exitOf

/-- The ports a switch sends the packet out of. -/
theorem exits (x : Packet) :
    (((netOf stp symm).ports (switchIdOf x)).erase (placeOf x)).val =
      (((stp.enabledPorts (switchIdOf x)).filter (· ≠ inPortOf x)).map fun port =>
        ⟨switchIdOf x, port⟩ : List SwitchAndPort) := by
  have nodup : ((stp.enabledPorts (switchIdOf x)).map fun port =>
      (⟨switchIdOf x, port⟩ : SwitchAndPort)).Nodup :=
    (stp.enabledPorts_nodup _).map fun a b same => congrArg SwitchAndPort.port same
  rw [Finset.erase_val, netOf, List.toFinset_val, nodup.dedup, Multiset.coe_erase,
    nodup.erase_eq_filter, List.filter_map]
  congr 2
  refine List.filter_congr fun port _ => ?_
  simp [placeOf, bne, Bool.beq_eq_decide_eq]

variable (symm) in
/-- What a switch sends over its cables comes in where they end. -/
theorem carried_places {x : Packet} (enabled : stp.enabled (placeOf x) = true) :
    (((broadcastPolicy stp.switchList).outputs x).filterMap (carry cabling)).map placeOf =
      (netOf stp symm).arrivals (placeOf x) := by
  have ends : ∀ port, (carry cabling (x.modify (outPortIs port))).map placeOf =
      cabling ⟨switchIdOf x, port⟩ := by
    intro port
    rw [carry, exitOf_outPortIs, Option.map_map]
    simp [Function.comp_def]
  rw [broadcastPolicy_copies, if_pos enabled, Flooding.Net.arrivals,
    show (netOf stp symm).node (placeOf x) = switchIdOf x from rfl, exits,
    Multiset.map_filterMap]
  simp only [Multiset.filterMap_coe, List.filterMap_map, Function.comp_def, ends]
  rfl

variable (symm) in
/-- What leaves without a cable. -/
theorem exited_places {x : Packet} (enabled : stp.enabled (placeOf x) = true) :
    (((broadcastPolicy stp.switchList).outputs x).filter fun y => cabling (exitOf y) = none).map exitOf =
      (netOf stp symm).leaving (placeOf x) := by
  rw [broadcastPolicy_copies, if_pos enabled, Flooding.Net.leaving,
    show (netOf stp symm).node (placeOf x) = switchIdOf x from rfl, exits]
  simp only [Multiset.filter_coe, List.filter_map, Function.comp_def, exitOf_outPortIs,
    Multiset.map_coe, List.map_map]
  rfl

variable (symm) in
/-- A packet is taken in as a copy at its port is. -/
theorem Takes.floods {x : Packet} {b b' : Broadcast} (takes : Takes stp cabling x b b') :
    placeOf x ∈ (project b).flight ∧
      project b' = Flooding.step (netOf stp symm) (project b) (placeOf x) := by
  cases takes with
  | takenIn rest handled delivered =>
      have mem : placeOf x ∈ (project ⟨x ::ₘ rest, handled, delivered⟩).flight := by simp [project]
      refine ⟨mem, ?_⟩
      rw [Flooding.step, if_pos mem]
      by_cases enabled : stp.enabled (placeOf x) = true
      · rw [if_pos (open_iff.mpr enabled)]
        simp only [project, Multiset.map_add, if_pos enabled, carried_places symm enabled,
          exited_places symm enabled, Multiset.map_cons, Multiset.erase_cons_head]
        rfl
      · rw [if_neg (mt open_iff.mp enabled)]
        simp [project, broadcastPolicy_copies, enabled]

variable (symm) in
/-- A broadcast goes the way of its copies. -/
theorem Floods.refines {b b' : Broadcast} {xs : List Packet} (floods : Floods stp cabling b xs b') :
    Each (Flooding.step (netOf stp symm)) (fun s p => p ∈ s.flight) (project b) (xs.map placeOf) ∧
      project b' = final (Flooding.step (netOf stp symm)) (project b) (xs.map placeOf) := by
  induction floods with
  | nil => exact ⟨trivial, rfl⟩
  | cons takes _ ih =>
      obtain ⟨mem, one⟩ := takes.floods symm
      rw [one] at ih
      exact ⟨⟨mem, ih.1⟩, ih.2⟩

/-- The packets of the broadcast are copies of one packet. -/
def Broadcast.CopiesOf (x : Packet) (b : Broadcast) : Prop :=
  (∀ y ∈ b.flight, SameContent x y) ∧ ∀ y ∈ b.delivered, SameContent x y

theorem sameContent_outputs {x y : Packet} (mem : y ∈ (broadcastPolicy stp.switchList).outputs x) :
    SameContent x y := by
  rw [broadcastPolicy_copies] at mem
  split at mem
  · obtain ⟨port, -, rfl⟩ := List.mem_map.mp (Multiset.mem_coe.mp mem)
    exact sameContent_outPortIs port
  · exact absurd mem (Multiset.notMem_zero y)

theorem Takes.copiesOf {x y : Packet} {b b' : Broadcast} (takes : Takes stp cabling y b b')
    (copies : b.CopiesOf x) : b'.CopiesOf x := by
  cases takes with
  | takenIn rest handled delivered =>
      obtain ⟨inFlight, out⟩ := copies
      have taken : SameContent x y := inFlight y (Multiset.mem_cons_self y rest)
      refine ⟨fun z mem => ?_, fun z mem => ?_⟩
      · rcases Multiset.mem_add.mp mem with old | new
        · exact inFlight z (Multiset.mem_cons_of_mem old)
        · obtain ⟨sent, isSent, carried⟩ := (Multiset.mem_filterMap _ _).mp new
          obtain ⟨p, -, rfl⟩ := Option.map_eq_some_iff.mp carried
          exact taken.trans ((sameContent_outputs isSent).trans sameContent_arriveAt)
      · rcases Multiset.mem_add.mp mem with old | new
        · exact out z old
        · exact taken.trans (sameContent_outputs (Multiset.mem_filter.mp new).1)

theorem Floods.copiesOf {x : Packet} {b b' : Broadcast} {xs : List Packet}
    (floods : Floods stp cabling b xs b') (copies : b.CopiesOf x) : b'.CopiesOf x := by
  induction floods with
  | nil => exact copies
  | cons takes _ ih => exact ih (takes.copiesOf copies)

end

/-! ## The cables of a network -/

variable {s : Network} {cabling : SwitchAndPort → Option SwitchAndPort} {p q : SwitchAndPort}

theorem Cabled.enabledLink (cabled : Cabled s cabling)
    (cable : (netOf s.stp cabled.symm).Cable p q) : Linked s.enabledLinks p q := by
  have left := open_iff.mp cable.left
  have right := open_iff.mp cable.right
  obtain ⟨l, mem, ends⟩ := cabled.known cable.peer left right
  refine ⟨l, List.mem_filter.mpr ⟨mem, ?_⟩, ends⟩
  rcases ends with ⟨rfl, rfl⟩ | ⟨rfl, rfl⟩ <;> simp [left, right]

theorem reachable_of_linked {links : List LinkProperty} (linked : Linked links p q) :
    (linkGraph links).Reachable p.dpid q.dpid := by
  obtain ⟨l, mem, ends⟩ := linked
  by_cases same : p.dpid = q.dpid
  · rw [same]
  · refine SimpleGraph.Adj.reachable ⟨same, l, mem, LinkProperty.joins_iff.mpr ?_⟩
    rcases ends with ⟨rfl, rfl⟩ | ⟨rfl, rfl⟩
    · exact .inl ⟨rfl, rfl⟩
    · exact .inr ⟨rfl, rfl⟩

/-- The enabled links are a forest, so the cables between enabled ports are one. -/
theorem Network.Settled.net_forest (settled : s.Settled) (computed : s.stp.computed = true)
    (cabled : Cabled s cabling) : (netOf s.stp cabled.symm).Forest := by
  intro p q cable way
  obtain ⟨l, mem, ends⟩ := cabled.enabledLink cable
  have isEnd : l.hasEnd p = true := LinkProperty.hasEnd_iff.mpr (ends.imp And.left And.right)
  have connected : ∀ d, ReflTransGen ((netOf s.stp cabled.symm).HopBut p) p.dpid d →
      (linkGraph (s.enabledLinks.erase l)).Reachable p.dpid d := by
    intro d way
    induction way with
    | refl => rfl
    | tail _ hop before =>
        obtain ⟨a, b, other, neA, neB, rfl, rfl⟩ := hop
        obtain ⟨m, memM, endsM⟩ := cabled.enabledLink other
        -- the link of this cable is another one, since its ends are not `p`
        have ne : m ≠ l := by
          rintro rfl
          rcases LinkProperty.hasEnd_iff.mp isEnd with here | here <;>
            rcases endsM with ⟨rfl, rfl⟩ | ⟨rfl, rfl⟩ <;> simp_all
        exact before.trans (reachable_of_linked ⟨m, (List.mem_erase_of_ne ne).mpr memM, endsM⟩)
  refine settled.forest computed l mem ?_
  rcases ends with ⟨rfl, rfl⟩ | ⟨rfl, rfl⟩
  · exact connected _ way
  · exact (connected _ way).symm

/-- The hops are between switches with an enabled link. -/
theorem Cabled.hop_iff (cabled : Cabled s cabling)
    (standing : ∀ l ∈ s.enabledLinks, cabling l.source = some l.target) {d e : BitVec 64} :
    ReflTransGen (netOf s.stp cabled.symm).Hop d e ↔ (linkGraph s.enabledLinks).Reachable d e := by
  constructor
  · intro way
    induction way with
    | refl => rfl
    | tail _ hop before =>
        obtain ⟨p, q, cable, rfl, rfl⟩ := hop
        exact before.trans (reachable_of_linked (cabled.enabledLink cable))
  · rintro ⟨walk⟩
    induction walk with
    | nil => exact .refl
    | cons adj _ ih =>
        obtain ⟨-, l, mem, joins⟩ := adj
        obtain ⟨source, target⟩ := Bool.and_eq_true_iff.mp (List.mem_filter.mp mem).2
        have cable : (netOf s.stp cabled.symm).Cable l.source l.target :=
          ⟨standing l mem, open_iff.mpr source, open_iff.mpr target⟩
        refine .head ?_ ih
        rcases LinkProperty.joins_iff.mp joins with ⟨rfl, rfl⟩ | ⟨rfl, rfl⟩
        · exact ⟨_, _, cable, rfl, rfl⟩
        · exact ⟨_, _, cable.symm, rfl, rfl⟩

/-! ## Computing the tree -/

/-- With all ports of the links there, the timer enables every link of the tree. -/
theorem timer_enables {tree : List LinkProperty} {stp : STP} (stale : s.stp.computed = false)
    (sub : ∀ l ∈ tree, l ∈ s.links)
    (present : ∀ l ∈ s.links, ∀ p, l.hasEnd p = true → (s.stp.switchList.portAt p).isSome = true)
    (result : s.stp.computeSpanningTree tree = some stp) :
    ∀ l ∈ tree, l ∈ Network.enabledLinks { s with stp } := by
  have ends : ∀ p ∈ STP.treePorts tree, (s.stp.switchList.portAt p).isSome = true := by
    intro p mem
    obtain ⟨l, inTree, isEnd⟩ := List.mem_flatMap.mp mem
    refine present l (sub l inTree) p (LinkProperty.hasEnd_iff.mpr ?_)
    simpa [eq_comm] using isEnd
  obtain ⟨list, enabled, ports⟩ := STP.enable_run (STP.treePorts tree)
    (s.stp.switchList.map SwitchSTP.resetBroadcast) fun p mem => by
      have there := ends p mem
      rw [SwitchList.find_map, Option.isSome_map]
      unfold SwitchList.portAt at there
      exact Option.isSome_of_isSome_bind there
  obtain rfl : stp = ⟨list, true⟩ := by
    rw [STP.computeSpanningTree, stale, if_neg (by decide), enabled] at result
    exact (Option.some.inj result).symm
  have on : ∀ p ∈ STP.treePorts tree, STP.enabled p ⟨list, true⟩ = true := by
    intro p mem
    obtain ⟨q, found⟩ := Option.isSome_iff_exists.mp (ends p mem)
    rw [STP.enabled_iff, ports, if_pos mem, SwitchList.portAt_resetBroadcast, found]
    exact ⟨_, rfl, rfl⟩
  intro l mem
  refine List.mem_filter.mpr ⟨sub l mem, Bool.and_eq_true_iff.mpr ⟨on _ ?_, on _ ?_⟩⟩
  · exact List.mem_flatMap.mpr ⟨l, mem, by simp⟩
  · exact List.mem_flatMap.mpr ⟨l, mem, by simp⟩

/-- Then the enabled links connect whatever the links connect. -/
theorem timer_connects {tree : List LinkProperty} {stp : STP} (stale : s.stp.computed = false)
    (spanning : SpanningForest s.links tree)
    (present : ∀ l ∈ s.links, ∀ p, l.hasEnd p = true → (s.stp.switchList.portAt p).isSome = true)
    (result : s.stp.computeSpanningTree tree = some stp) (u v : BitVec 64) :
    (linkGraph (Network.enabledLinks { s with stp })).Reachable u v ↔
      (linkGraph s.links).Reachable u v := by
  constructor
  · exact fun connected => connected.mono (linkGraph_mono fun l mem => (List.mem_filter.mp mem).1)
  · exact fun connected => (spanning.spans u v connected).mono
      (linkGraph_mono (timer_enables stale spanning.subset present result))

/-! ## Broadcasts -/

variable {kruskal : TopologyGraph → List LinkProperty} {es : List NetworkEvent} {x : Packet}
  {xs : List Packet} {b : Broadcast}

theorem settled_run [AdjacencyList] (spans : Each (Network.step kruskal) (Network.Spans kruskal) (some {}) es)
    (orderly : Each (Network.step kruskal) Network.Orderly (some {}) es)
    (ended : final (Network.step kruskal) (some {}) es = some s) : s.Settled := by
  have run := Each.invariant (fun s => ∃ known, s = some known ∧ Network.Settled known)
    (fun before e ⟨known, same, settled⟩ ⟨spans, orderly⟩ => by
      obtain rfl := same
      obtain ⟨next, result, settled'⟩ := Network.handle_settled settled orderly spans
      exact ⟨next, result, settled'⟩)
    ⟨{}, rfl, .initial⟩ (each_and.mpr ⟨spans, orderly⟩)
  obtain ⟨known, same, settled⟩ := run
  rw [ended] at same
  exact Option.some.inj same ▸ settled

/-- The switches of the list. -/
def SwitchList.dpids (l : SwitchList) : Finset (BitVec 64) := (l.entries.map Prod.fst).toFinset

theorem STP.mem_dpids {stp : STP} {p : SwitchAndPort} (enabled : stp.enabled p = true) :
    p.dpid ∈ stp.switchList.dpids := by
  rw [STP.enabled] at enabled
  cases found : stp.switchList.find p.dpid with
  | none => simp [found] at enabled
  | some sw =>
      exact List.mem_toFinset.mpr (List.mem_map_of_mem (SwitchList.find_iff.mp found))

theorem project_start (x : Packet) :
    project { flight := {x} } = Flooding.start (placeOf x) := by
  simp [project, Flooding.start]

/-- **In whatever order the packets of a broadcast are taken in, no switch floods it twice, no port
without a cable gets a second copy and the one it came in at gets none, the copies differ from the
packet in where they are only, and no more are taken in than there are enabled ports and one.** -/
theorem broadcast_once [AdjacencyList]
    (spans : Each (Network.step kruskal) (Network.Spans kruskal) (some {}) es)
    (orderly : Each (Network.step kruskal) Network.Orderly (some {}) es)
    (ended : final (Network.step kruskal) (some {}) es = some s) (computed : s.stp.computed = true)
    (cabled : Cabled s cabling) (host : cabling (placeOf x) = none)
    (enabled : s.stp.enabled (placeOf x) = true)
    (floods : Floods s.stp cabling { flight := {x} } xs b) :
    b.handled.Nodup ∧ (b.delivered.map exitOf).Nodup ∧ placeOf x ∉ b.delivered.map exitOf ∧
      b.CopiesOf x ∧
      xs.length ≤ 1 + ∑ d ∈ s.stp.switchList.dpids, (s.stp.enabledPorts d).length := by
  have forest := (settled_run spans orderly ended).net_forest computed cabled
  obtain ⟨taken, same⟩ := floods.refines cabled.symm
  rw [project_start] at taken same
  have isOpen : (netOf s.stp cabled.symm).Open (placeOf x) := open_iff.mpr enabled
  obtain ⟨handled, delivered, notBack⟩ := Flooding.flood_once forest host isOpen (xs.map placeOf)
  rw [← same] at handled delivered notBack
  refine ⟨handled, delivered, notBack, floods.copiesOf ⟨?_, ?_⟩, ?_⟩
  · simpa using SameContent.refl x
  · simp
  · have connected : ∀ d, ReflTransGen (netOf s.stp cabled.symm).Hop (switchIdOf x) d →
        d ∈ s.stp.switchList.dpids := by
      intro d way
      rcases ReflTransGen.cases_tail way with rfl | ⟨_, _, _, q, cable, rfl, rfl⟩
      · exact STP.mem_dpids enabled
      · exact STP.mem_dpids (open_iff.mp cable.right)
    have bound := Flooding.flood_ends forest host isOpen connected taken
    have ports : ∀ d, ((netOf s.stp cabled.symm).ports d).card = (s.stp.enabledPorts d).length := by
      intro d
      rw [netOf, List.toFinset_card_of_nodup, List.length_map]
      exact (s.stp.enabledPorts_nodup d).map fun _ _ same => congrArg SwitchAndPort.port same
    simpa only [List.length_map, ports] using bound

/-- **After the timer has computed the tree with all ports of the links there, a broadcast that has
come to an end has come to just the switches that the known links connect with the first one, and
out of just their enabled ports without a cable, but the one it came in at.** -/
theorem broadcast_everywhere [AdjacencyList] {s' : Network}
    (spans : Each (Network.step kruskal) (Network.Spans kruskal) (some {}) es)
    (orderly : Each (Network.step kruskal) Network.Orderly (some {}) es)
    (before : final (Network.step kruskal) (some {}) es = some s) (stale : s.stp.computed = false)
    (ready : s.Ready) (spanning : SpanningForest s.links (kruskal s.topology.graph))
    (present : ∀ l ∈ s.links, ∀ p, l.hasEnd p = true → (s.stp.switchList.portAt p).isSome = true)
    (timer : s.handle kruskal .timer = some s') (cabled : Cabled s' cabling)
    (standing : ∀ l ∈ s'.enabledLinks, cabling l.source = some l.target)
    (host : cabling (placeOf x) = none) (enabled : s'.stp.enabled (placeOf x) = true)
    (floods : Floods s'.stp cabling { flight := {x} } xs b) (quiet : b.flight = 0) :
    (∀ d, d ∈ b.handled ↔ (linkGraph s.links).Reachable (switchIdOf x) d) ∧
      ∀ p, p ∈ b.delivered.map exitOf ↔ s'.stp.enabled p = true ∧ cabling p = none ∧
        p ≠ placeOf x ∧ (linkGraph s.links).Reachable (switchIdOf x) p.dpid := by
  obtain ⟨stp, result, settled⟩ :=
    (settled_run spans orderly before).timer (fun _ => ready) fun _ => spanning
  obtain rfl : s' = { s with stp } := by
    rw [Network.handle, result] at timer
    exact (Option.some.inj timer).symm
  have computed : stp.computed = true := by
    obtain ⟨list, -, rfl⟩ := Option.map_eq_some_iff.mp (by simpa [STP.computeSpanningTree, stale] using result)
    rfl
  have forest := settled.net_forest computed cabled
  have isOpen : (netOf stp cabled.symm).Open (placeOf x) := open_iff.mpr enabled
  obtain ⟨-, same⟩ := floods.refines cabled.symm
  rw [project_start] at same
  have calm : (final (Flooding.step (netOf stp cabled.symm)) (Flooding.start (placeOf x))
      (xs.map placeOf)).flight = 0 := by
    rw [← same, project, quiet, Multiset.map_zero]
  obtain ⟨reached, left⟩ := Flooding.flood_complete forest host isOpen calm
  have connects : ∀ d, ReflTransGen (netOf stp cabled.symm).Hop (switchIdOf x) d ↔
      (linkGraph s.links).Reachable (switchIdOf x) d := fun d =>
    (cabled.hop_iff standing).trans (timer_connects stale spanning present result _ _)
  rw [← same] at reached left
  refine ⟨fun d => (reached d).trans (connects d), fun p => (left p).trans ?_⟩
  exact and_congr open_iff (and_congr Iff.rfl (and_congr Iff.rfl (connects p.dpid)))

/-! ## Two switches and a cable -/

open scoped EdgeList

def pair : List NetworkEvent :=
  [.switchDiscovered 1, .switchDiscovered 2, .portUp ⟨1, 2⟩, .portUp ⟨2, 2⟩,
    .linkDiscovered ⟨1, 1⟩ ⟨2, 1⟩ 0]

def pairBefore : Network := (final (Network.step TopologyGraph.edges) (some {}) pair).getD {}

def pairAfter : Network := (pairBefore.handle TopologyGraph.edges .timer).getD {}

def pairCable (p : SwitchAndPort) : Option SwitchAndPort :=
  if p = ⟨1, 1⟩ then some ⟨2, 1⟩ else if p = ⟨2, 1⟩ then some ⟨1, 1⟩ else none

def fromHost : Packet := arriveAt ⟨1, 2⟩ fun _ => 0

def overCable : Packet := arriveAt ⟨2, 1⟩ (fromHost.modify (outPortIs 1))

theorem pair_spans : Each (Network.step TopologyGraph.edges) (Network.Spans TopologyGraph.edges)
    (some {}) pair := ⟨trivial, trivial, trivial, trivial, trivial, trivial⟩

theorem pair_orderly : Each (Network.step TopologyGraph.edges) Network.Orderly (some {}) pair := by
  refine ⟨trivial, trivial, fun known same on => ?_, fun known same on => ?_, trivial, trivial⟩ <;>
    rw [← Option.some.inj same] at on <;> cases on

theorem pair_links : pairBefore.links = [⟨⟨1, 1⟩, ⟨2, 1⟩⟩] := by decide

theorem pair_ends {p : SwitchAndPort} (isEnd : LinkProperty.hasEnd ⟨⟨1, 1⟩, ⟨2, 1⟩⟩ p = true) :
    (pairBefore.stp.switchList.find p.dpid).isSome = true ∧
      pairBefore.stp.switchList.portAt p = some ⟨1, false, true⟩ := by
  rcases LinkProperty.hasEnd_iff.mp isEnd with rfl | rfl <;> decide

theorem pair_ready : pairBefore.Ready := by
  refine ⟨?_, ?_, ?_, ?_⟩ <;> simp only [pair_links, List.mem_singleton, forall_eq]
  · exact List.nodup_singleton _
  · exact ⟨⟨1, 1⟩, by decide, fun _ => trivial⟩
  · exact fun p isEnd => (pair_ends isEnd).1
  · intro p isEnd q found
    rw [(pair_ends isEnd).2] at found
    rw [← Option.some.inj found]

theorem pair_cabled : Cabled pairAfter pairCable where
  symm := by
    intro p q cable
    unfold pairCable at *
    split_ifs at cable <;> cases cable <;> simp_all
  known := by
    intro p q cable _ _
    refine ⟨⟨⟨1, 1⟩, ⟨2, 1⟩⟩, by decide, ?_⟩
    unfold pairCable at cable
    split_ifs at cable <;> cases cable <;> simp_all

theorem pair_outputs {x : Packet} {d : BitVec 64} {port : BitVec 32} (other : BitVec 32) (place : placeOf x = ⟨d, port⟩)
    (ports : (pairAfter.stp.enabledPorts d).filter (· ≠ port) = [other])
    (enabled : pairAfter.stp.enabled ⟨d, port⟩ = true) :
    (broadcastPolicy pairAfter.stp.switchList).outputs x = {x.modify (outPortIs other)} := by
  obtain ⟨rfl, rfl⟩ := SwitchAndPort.mk.inj place
  rw [broadcastPolicy_copies, if_pos (by rw [place]; exact enabled), ports]
  rfl

theorem pair_floods : ∃ b, Floods pairAfter.stp pairCable { flight := {fromHost} } [fromHost, overCable] b ∧
    b.flight = 0 := by
  have first : placeOf fromHost = ⟨1, 2⟩ := placeOf_arriveAt
  have second : placeOf overCable = ⟨2, 1⟩ := placeOf_arriveAt
  have sent := pair_outputs 1 first (by decide) (by decide)
  have sentOn := pair_outputs 2 second (by decide) (by decide)
  have exit : exitOf (fromHost.modify (outPortIs 1)) = ⟨1, 1⟩ := by
    rw [exitOf_outPortIs]
    exact congrArg (SwitchAndPort.mk · 1) (congrArg SwitchAndPort.dpid first)
  have exitOn : exitOf (overCable.modify (outPortIs 2)) = ⟨2, 2⟩ := by
    rw [exitOf_outPortIs]
    exact congrArg (SwitchAndPort.mk · 2) (congrArg SwitchAndPort.dpid second)
  have crossed : carry pairCable (fromHost.modify (outPortIs 1)) = some overCable := by
    rw [carry, exit]
    rfl
  have out : carry pairCable (overCable.modify (outPortIs 2)) = none := by
    rw [carry, exitOn]
    rfl
  have takes : Takes pairAfter.stp pairCable fromHost _ _ := .takenIn _ 0 [] 0
  rw [sent, ← Multiset.coe_singleton, Multiset.filterMap_coe, List.filterMap_cons_some crossed] at takes
  refine ⟨_, .cons takes (.cons (.takenIn _ 0 _ _) (.nil _)), ?_⟩
  rw [sentOn, ← Multiset.coe_singleton, Multiset.filterMap_coe, List.filterMap_cons_none out]
  rfl

theorem pair_host : pairCable (placeOf fromHost) = none ∧ pairAfter.stp.enabled (placeOf fromHost) = true := by
  have place : placeOf fromHost = ⟨1, 2⟩ := placeOf_arriveAt
  rw [place]
  decide

theorem pair_spanning :
    SpanningForest pairBefore.links (TopologyGraph.edges pairBefore.topology.graph) := by
  rw [show TopologyGraph.edges pairBefore.topology.graph = pairBefore.links from rfl, pair_links]
  exact Network.spanningForest_single (by decide)

/-- A host of the first switch broadcasts to one of the second. -/
theorem broadcast_once_pair : ∃ b, Floods pairAfter.stp pairCable { flight := {fromHost} }
    [fromHost, overCable] b ∧ b.handled.Nodup ∧ (b.delivered.map exitOf).Nodup ∧
      placeOf fromHost ∉ b.delivered.map exitOf ∧ b.CopiesOf fromHost := by
  obtain ⟨b, floods, -⟩ := pair_floods
  have spans : Each (Network.step TopologyGraph.edges) (Network.Spans TopologyGraph.edges) (some {})
      (pair ++ [.timer]) :=
    ⟨trivial, trivial, trivial, trivial, trivial, fun known same _ =>
      Option.some.inj same ▸ pair_spanning, trivial⟩
  have orderly : Each (Network.step TopologyGraph.edges) Network.Orderly (some {}) (pair ++ [.timer]) := by
    obtain ⟨a, b, c, d, e, -⟩ := pair_orderly
    exact ⟨a, b, c, d, e, fun known same _ => Option.some.inj same ▸ pair_ready, trivial⟩
  obtain ⟨handled, delivered, notBack, copies, -⟩ := broadcast_once spans orderly rfl
    (s := pairAfter) rfl pair_cabled pair_host.1 pair_host.2 floods
  exact ⟨b, floods, handled, delivered, notBack, copies⟩

theorem broadcast_everywhere_pair : ∃ b, Floods pairAfter.stp pairCable { flight := {fromHost} }
    [fromHost, overCable] b ∧ b.flight = 0 ∧
      ∀ d, d ∈ b.handled ↔ (linkGraph pairBefore.links).Reachable (switchIdOf fromHost) d := by
  obtain ⟨b, floods, quiet⟩ := pair_floods
  have present : ∀ l ∈ pairBefore.links, ∀ p, l.hasEnd p = true →
      (pairBefore.stp.switchList.portAt p).isSome = true := by
    simp only [pair_links, List.mem_singleton, forall_eq]
    intro p isEnd
    rw [(pair_ends isEnd).2]
    rfl
  have standing : ∀ l ∈ pairAfter.enabledLinks, pairCable l.source = some l.target := by decide
  exact ⟨b, floods, quiet, (broadcast_everywhere pair_spans pair_orderly rfl rfl pair_ready
    pair_spanning present rfl pair_cabled standing pair_host.1 pair_host.2 floods quiet).1⟩

end Drunos.Topology
