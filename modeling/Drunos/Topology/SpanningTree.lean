/-
# Drunos.Topology.SpanningTree — the events of the spanning tree application

`STP.cc`: the switches it knows, the ports of each with their flags, and the flag
`computed`. Links are announced to `Topology` and to `STP`; the timer asks Kruskal's
algorithm for a tree of the graph of `Topology` and enables the ports of the tree.

`switch_list[dpid]` makes a null entry when there is none. The timer follows it at
once, and then there is no next state.
-/
import Drunos.Topology.Broadcast
import Drunos.Topology.Links

namespace Drunos.Topology

set_option autoImplicit false

namespace SwitchSTP

def port (p : BitVec 32) (sw : SwitchSTP) : Option Port := sw.ports.find? fun q => q.portNo = p

def existsPort (p : BitVec 32) (sw : SwitchSTP) : Bool := (sw.port p).isSome

theorem port_none {sw : SwitchSTP} {p : BitVec 32} (absent : sw.existsPort p = false) :
    p ∉ sw.ports.map Port.portNo := by
  rintro mem
  obtain ⟨q, member, rfl⟩ := List.mem_map.mp mem
  have none : sw.port q.portNo = none := by simpa [existsPort] using absent
  simpa using List.find?_eq_none.mp none q member

/-- A port is made when it does not exist yet. -/
def newPort (p : BitVec 32) (sw : SwitchSTP) : SwitchSTP :=
  if absent : sw.existsPort p = false then
    ⟨sw.ports ++ [⟨p, true, false⟩], by
      rw [List.map_append, List.nodup_append]
      refine ⟨sw.nodup, List.nodup_singleton _, ?_⟩
      rintro _ old _ new rfl
      rw [List.mem_singleton.mp new] at old
      exact port_none absent old⟩
  else sw

/-- `f` is applied to the flags of the ports. -/
def mapPorts (f : Port → Bool × Bool) (sw : SwitchSTP) : SwitchSTP :=
  ⟨sw.ports.map fun q => ⟨q.portNo, (f q).1, (f q).2⟩, by
    rw [List.map_map]
    exact sw.nodup⟩

/-- `ports.at(p)->broadcast = b`, of a port that exists. -/
def setBroadcast (p : BitVec 32) (b : Bool) (sw : SwitchSTP) : SwitchSTP :=
  sw.mapPorts fun q => if q.portNo = p then (b, q.toSwitch) else (q.broadcast, q.toSwitch)

def setSwitchPort (p : BitVec 32) (sw : SwitchSTP) : SwitchSTP :=
  sw.mapPorts fun q => if q.portNo = p then (q.broadcast, true) else (q.broadcast, q.toSwitch)

def resetBroadcast (sw : SwitchSTP) : SwitchSTP :=
  sw.mapPorts fun q => if q.toSwitch then (false, true) else (q.broadcast, q.toSwitch)

end SwitchSTP

namespace SwitchList

def find (dpid : BitVec 64) (l : SwitchList) : Option SwitchSTP :=
  (l.entries.find? fun e => e.1 = dpid).map Prod.snd

def erase (dpid : BitVec 64) (l : SwitchList) : SwitchList :=
  ⟨l.entries.filter fun e => e.1 ≠ dpid, l.nodup.sublist (List.filter_sublist.map _)⟩

/-- `switch_list[dpid] = sw`. -/
def assign (dpid : BitVec 64) (sw : SwitchSTP) (l : SwitchList) : SwitchList :=
  ⟨(dpid, sw) :: (l.erase dpid).entries, by
    refine List.nodup_cons.mpr ⟨fun mem => ?_, (l.erase dpid).nodup⟩
    obtain ⟨e, mem, same⟩ := List.mem_map.mp mem
    simpa [same] using (List.mem_filter.mp mem).2⟩

/-- `f` is applied to each switch. -/
def map (f : SwitchSTP → SwitchSTP) (l : SwitchList) : SwitchList :=
  ⟨l.entries.map fun e => (e.1, f e.2), by
    rw [List.map_map]
    exact l.nodup⟩

end SwitchList

/-! ## STP -/

structure STP where
  switchList : SwitchList := ⟨[], List.nodup_nil⟩
  computed : Bool := false

/-- The biggest number of a port that is not reserved. -/
def OFPP_MAX : BitVec 32 := 0xffffff00

namespace STP

/-- What `onLinkDiscovered` does at one end of a link: the port is made if need be,
disabled, and marked as leading to a switch. -/
def linkEnd (p : SwitchAndPort) (l : SwitchList) : SwitchList :=
  match l.find p.dpid with
  | some sw => l.assign p.dpid (((sw.newPort p.port).setBroadcast p.port false).setSwitchPort p.port)
  | none => l

def onLinkDiscovered (source target : SwitchAndPort) (s : STP) : STP :=
  if (s.switchList.find source.dpid).isNone then s
  else if (s.switchList.find target.dpid).isNone then s
  else ⟨linkEnd target (linkEnd source s.switchList), false⟩

def onLinkBroken (s : STP) : STP := { s with computed := false }

/-- A `SwitchSTP` is made without ports. -/
def newSwitch : SwitchSTP := ⟨[], List.nodup_nil⟩

def onSwitchDiscovered (dpid : BitVec 64) (s : STP) : STP :=
  { s with switchList := s.switchList.assign dpid newSwitch }

def onSwitchDown (dpid : BitVec 64) (s : STP) : STP :=
  { s with switchList := s.switchList.erase dpid }

def onSwitchUp (dpid : BitVec 64) (s : STP) : STP :=
  if (s.switchList.find dpid).isNone then s.onSwitchDiscovered dpid else s

def onPortUp (p : SwitchAndPort) (s : STP) : STP :=
  match s.switchList.find p.dpid with
  | some sw =>
      if p.port < OFPP_MAX then
        { s with switchList := s.switchList.assign p.dpid (sw.newPort p.port) }
      else s
  | none => s

/-- One port of the tree: its switch must not be null. -/
def enable (l : SwitchList) (p : SwitchAndPort) : Option SwitchList :=
  (l.find p.dpid).map fun sw =>
    if sw.existsPort p.port then l.assign p.dpid (sw.setBroadcast p.port true) else l

/-- `spanning_tree`: the ends of the links of the tree. -/
def treePorts (tree : List LinkProperty) : List SwitchAndPort :=
  tree.flatMap fun l => [l.source, l.target]

def computeSpanningTree (tree : List LinkProperty) (s : STP) : Option STP :=
  if s.computed then some s
  else
    ((treePorts tree).foldlM enable (s.switchList.map SwitchSTP.resetBroadcast)).map fun l =>
      ⟨l, true⟩

end STP

/-! ## Events -/

inductive NetworkEvent where
  | switchDiscovered (dpid : BitVec 64)
  | switchUp (dpid : BitVec 64)
  | switchDown (dpid : BitVec 64)
  | portUp (port : SwitchAndPort)
  | linkDiscovered (source target : SwitchAndPort) (rand : Nat)
  | linkBroken (source target : SwitchAndPort)
  | timer

structure Network where
  stp : STP := {}
  topology : TopologyState := {}

/-- One event, with what Kruskal's algorithm makes of a graph as a parameter. -/
def Network.handle [AdjacencyList] (kruskal : TopologyGraph → List LinkProperty) (s : Network) :
    NetworkEvent → Option Network
  | .switchDiscovered dpid => some { s with stp := s.stp.onSwitchDiscovered dpid }
  | .switchUp dpid => some { s with stp := s.stp.onSwitchUp dpid }
  | .switchDown dpid => some { s with stp := s.stp.onSwitchDown dpid }
  | .portUp port => some { s with stp := s.stp.onPortUp port }
  | .linkDiscovered source target rand =>
      some ⟨s.stp.onLinkDiscovered source target, s.topology.linkDiscovered source target rand⟩
  | .linkBroken source target =>
      some ⟨s.stp.onLinkBroken, s.topology.linkBroken source target⟩
  | .timer =>
      (s.stp.computeSpanningTree (kruskal s.topology.graph)).map fun stp => { s with stp }

/-! ## Finding ports -/

namespace SwitchSTP

variable {sw : SwitchSTP} {p q : BitVec 32}

/-- One number, one port. -/
theorem mem_getEnabledPorts :
    p ∈ sw.getEnabledPorts ↔ ∃ q, sw.port p = some q ∧ q.broadcast = true := by
  have nodup := sw.nodup
  unfold getEnabledPorts port
  generalize sw.ports = ports at nodup
  induction ports with
  | nil => simp
  | cons q ports ih =>
      obtain ⟨new, nodup⟩ := List.nodup_cons.mp nodup
      by_cases same : q.portNo = p
      · have other : p ∉ (ports.filter Port.broadcast).map Port.portNo := by
          intro mem
          exact new (same ▸ (List.filter_sublist.map Port.portNo).subset mem)
        by_cases enabled : q.broadcast = true <;> simp_all
      · rw [List.find?_cons_of_neg (by simpa using same)]
        refine Iff.trans ?_ (ih nodup)
        by_cases enabled : q.broadcast = true <;> simp [enabled, Ne.symm same]

theorem port_mapPorts (f : Port → Bool × Bool) :
    (sw.mapPorts f).port p = (sw.port p).map fun q => ⟨q.portNo, (f q).1, (f q).2⟩ := by
  unfold mapPorts port
  rw [List.find?_map]
  rfl

theorem port_portNo {r : Port} (found : sw.port p = some r) : r.portNo = p := by
  simpa using List.find?_some found

theorem port_setBroadcast (b : Bool) :
    (sw.setBroadcast p b).port q =
      if q = p then (sw.port q).map fun r => { r with broadcast := b } else sw.port q := by
  rw [setBroadcast, port_mapPorts]
  cases found : sw.port q with
  | none => simp
  | some r =>
      obtain rfl := port_portNo found
      by_cases same : r.portNo = p <;> simp [same]

theorem port_newPort :
    (sw.newPort p).port q =
      if q = p then some ((sw.port p).getD ⟨p, true, false⟩) else sw.port q := by
  unfold newPort
  split
  · rename_i absent
    have none : sw.port p = none := by simpa [existsPort] using absent
    by_cases same : q = p
    · subst same
      simp only [port] at none ⊢
      simp [List.find?_append, none]
    · simp [port, List.find?_append, Ne.symm same, same]
  · rename_i present
    obtain ⟨r, found⟩ : ∃ r, sw.port p = some r :=
      Option.isSome_iff_exists.mp (by rwa [Bool.not_eq_false] at present)
    by_cases same : q = p
    · subst same
      simp [found]
    · simp [same]

end SwitchSTP

namespace SwitchList

variable {l : SwitchList} {d e : BitVec 64}

theorem find_erase : (l.erase e).find d = if d = e then none else l.find d := by
  unfold erase find
  rw [List.find?_filter]
  by_cases same : d = e
  · subst same
    simp
  · rw [if_neg same]
    congr 2
    funext x
    by_cases here : x.1 = d <;> simp [here, same]

theorem find_assign (sw : SwitchSTP) :
    (l.assign e sw).find d = if d = e then some sw else l.find d := by
  have rest := find_erase (l := l) (d := d) (e := e)
  by_cases same : d = e
  · subst same
    simp [assign, find]
  · rw [if_neg same] at rest ⊢
    rw [← rest]
    simp [assign, find, Ne.symm same]

theorem find_map (f : SwitchSTP → SwitchSTP) : (l.map f).find d = (l.find d).map f := by
  unfold map find
  rw [List.find?_map]
  cases found : l.entries.find? fun x => x.1 = d with
  | none => simp [Function.comp_def, found]
  | some x => simp [Function.comp_def, found]

end SwitchList

end Drunos.Topology
