/-
# Drunos.Topology.LearningSwitch — what the learning switch knows of hosts

`HostsDatabase` and the handler of `LearningSwitch.cc`. An address is learned from the source of the
packets, unless it is the broadcast address; where it was seen first is where it stays. So the handler
knows the location of the source of every packet but one with the broadcast address as its source, and
that location is read without a test once the destination is known.

`source_known_iff`: an empty location is read exactly for a packet with the broadcast address as its
source to a host that has sent a packet before.
-/
import Drunos.Topology.Route
import Drunos.Topology.Broadcast
import Drunos.Theory.Run
import Drunos.Types.Ethaddr
import Mathlib.Data.List.Induction

namespace Drunos.Topology

open Drunos.Oxm Drunos.Retic Drunos.Theory.Run Drunos.Types
open scoped Drunos.Oxm.OpenflowBasic

set_option autoImplicit false

def ethSrcOf (x : Packet) : Ethaddr := x ethSrc

def ethDstOf (x : Packet) : Ethaddr := x ethDst

/-! ## HostsDatabase -/

structure HostsDatabase where
  db : Ethaddr → Option SwitchAndPort

namespace HostsDatabase

def empty : HostsDatabase := ⟨fun _ => none⟩

/-- `emplace` leaves a location that is there already. -/
def learn (hosts : HostsDatabase) (dpid : BitVec 64) (inPort : BitVec 32) (mac : Ethaddr) :
    HostsDatabase :=
  if isBroadcast mac then hosts
  else ⟨Function.update hosts.db mac (some ((hosts.db mac).getD ⟨dpid, inPort⟩))⟩

def query (hosts : HostsDatabase) (mac : Ethaddr) : Option SwitchAndPort := hosts.db mac

theorem learn_isSome (hosts : HostsDatabase) (dpid : BitVec 64) (inPort : BitVec 32) (mac other : Ethaddr) :
    ((hosts.learn dpid inPort other).query mac).isSome =
      ((hosts.query mac).isSome || (mac == other && !isBroadcast mac)) := by
  simp only [query, learn]
  by_cases same : mac = other
  · subst same
    cases isBroadcast mac <;> simp
  · cases isBroadcast other <;> simp [same]

end HostsDatabase

/-! ## The handler -/

/-- What the handler finds out about the network: the graph of the topology with the predecessors of
Dijkstra's algorithm for each target, and the spanning tree. -/
structure NetworkView where
  topology : TopologyGraph
  predecessors : BitVec 64 → BitVec 64 → BitVec 64
  stp : SwitchList

/-- A policy, no policy where an exception is thrown or the search for a route does not end, or nothing
defined where the empty location of the source is read. -/
inductive Answer
  | policy (policy : Option Policy)
  | emptySource

/-- The handler of the policy "forwarding". -/
def forwarding [AdjacencyList] (net : NetworkView) (hosts : HostsDatabase) (pkt : Packet) : HostsDatabase × Answer :=
  let hosts := hosts.learn (switchIdOf pkt) (inPortOf pkt) (ethSrcOf pkt)
  (hosts,
    match hosts.query (ethDstOf pkt), hosts.query (ethSrcOf pkt) with
    | some target, some source =>
        .policy (learningRoute net.topology (net.predecessors target.dpid) source target)
    | some _, none => .emptySource
    | none, _ =>
        if isBroadcast (ethDstOf pkt) then .policy (some (broadcastPolicy net.stp))
        else
          .policy (some (.sequential (.flowSettings { idleTimeout := 0 }) (broadcastPolicy net.stp))))

/-- The packets handled so far, each with the network at its time. -/
abbrev History := List (NetworkView × Packet)

/-- What is known after the packets of a history. -/
def knownHosts [AdjacencyList] (history : History) : HostsDatabase :=
  final (fun hosts handled => (forwarding handled.1 hosts handled.2).1) .empty history

theorem knownHosts_concat [AdjacencyList] (history : History) (net : NetworkView) (pkt : Packet) :
    knownHosts (history ++ [(net, pkt)]) = (forwarding net (knownHosts history) pkt).1 := by
  simp [knownHosts, final]

/-- Known are the addresses that have sent a packet, but not the broadcast address. -/
theorem knownHosts_isSome [AdjacencyList] (history : History) (mac : Ethaddr) :
    ((knownHosts history).query mac).isSome = true ↔
      isBroadcast mac = false ∧ ∃ handled ∈ history, ethSrcOf handled.2 = mac := by
  induction history using List.reverseRecOn with
  | nil => simp [knownHosts, HostsDatabase.empty, HostsDatabase.query]
  | append_singleton earlier last ih =>
      obtain ⟨net, pkt⟩ := last
      rw [knownHosts_concat, forwarding, HostsDatabase.learn_isSome, Bool.or_eq_true, ih]
      simp only [List.mem_append, List.mem_singleton, Bool.and_eq_true, beq_iff_eq,
        Bool.not_eq_true']
      constructor
      · rintro (⟨single, handled, mem, source⟩ | ⟨rfl, single⟩)
        · exact ⟨single, handled, .inl mem, source⟩
        · exact ⟨single, (net, pkt), .inr rfl, rfl⟩
      · rintro ⟨single, handled, mem | rfl, source⟩
        · exact .inl ⟨single, handled, mem, source⟩
        · exact .inr ⟨source.symm, single⟩

/-- After a packet the source is known, unless it is the broadcast address. -/
theorem forwarding_source [AdjacencyList] (history : History) (net : NetworkView) (pkt : Packet) :
    ((forwarding net (knownHosts history) pkt).1.query (ethSrcOf pkt)).isSome =
      !isBroadcast (ethSrcOf pkt) := by
  rw [← knownHosts_concat, Bool.eq_iff_iff, knownHosts_isSome, Bool.not_eq_true']
  exact ⟨And.left, fun single => ⟨single, (net, pkt), by simp, rfl⟩⟩

/-- A location is read that is not there, if only the destination is known. -/
theorem forwarding_emptySource [AdjacencyList] (net : NetworkView) (hosts : HostsDatabase) (pkt : Packet) :
    (forwarding net hosts pkt).2 = .emptySource ↔
      ((forwarding net hosts pkt).1.query (ethDstOf pkt)).isSome = true ∧
        ((forwarding net hosts pkt).1.query (ethSrcOf pkt)).isSome = false := by
  simp only [forwarding]
  generalize hosts.learn (switchIdOf pkt) (inPortOf pkt) (ethSrcOf pkt) = after
  cases after.query (ethDstOf pkt) with
  | none =>
      cases isBroadcast (ethDstOf pkt) <;> simp
  | some target => cases after.query (ethSrcOf pkt) <;> simp

/-- **The handler reads no empty location, unless the source is the broadcast address and the destination
is another address that has sent a packet before.** -/
theorem source_known_iff [AdjacencyList] (history : History) (net : NetworkView) (pkt : Packet) :
    (forwarding net (knownHosts history) pkt).2 ≠ .emptySource ↔
      ¬(isBroadcast (ethSrcOf pkt) = true ∧ isBroadcast (ethDstOf pkt) = false ∧
        ∃ handled ∈ history, ethSrcOf handled.2 = ethDstOf pkt) := by
  rw [ne_eq, not_iff_not, forwarding_emptySource]
  have source := forwarding_source history net pkt
  have target := knownHosts_isSome (history ++ [(net, pkt)]) (ethDstOf pkt)
  rw [knownHosts_concat] at target
  rw [target, source, Bool.not_eq_false']
  simp only [List.mem_append, List.mem_singleton]
  constructor
  · rintro ⟨⟨single, handled, mem | rfl, same⟩, broadcast⟩
    · exact ⟨broadcast, single, handled, mem, same⟩
    · rw [same] at broadcast
      rw [broadcast] at single
      cases single
  · rintro ⟨broadcast, single, handled, mem, same⟩
    exact ⟨⟨single, handled, .inl mem, same⟩, broadcast⟩

open scoped EdgeList in
/-- A packet from the broadcast address to a host that has sent one packet. -/
theorem source_unknown :
    let net : NetworkView := ⟨{}, fun _ => id, ⟨[], by simp⟩⟩
    let first := OpenflowBasic.packet [.exactly ethSrc 1#48]
    let second := OpenflowBasic.packet [.exactly ethSrc (BitVec.allOnes 48), .exactly ethDst 1#48]
    (forwarding net (knownHosts [(net, first)]) second).2 = .emptySource := by
  rfl

end Drunos.Topology
