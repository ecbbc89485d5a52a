/-
# Drunos.Topology.Broadcast — the flood policy of the spanning tree

`SwitchSTP` and `STP::broadcastPolicy` of `STP.cc`. The policy is a sum over the
switches of sums over their enabled ports; what it makes of a packet is read off
the switch and the port the packet came in at (`broadcastPolicy_outputs`).
-/
import Drunos.Topology.Location
import Mathlib.Tactic.SplitIfs

namespace Drunos.Topology

open Drunos.Oxm Drunos.Retic
open scoped Drunos.Oxm.OpenflowBasic

set_option autoImplicit false

/-! ## SwitchSTP -/

/-- `Port` of `STP.hh`, without the pointer to the next switch, which nothing reads. -/
structure Port where
  portNo : BitVec 32
  broadcast : Bool := true
  toSwitch : Bool := false
  deriving DecidableEq

/-- `SwitchSTP`: its ports, by port number. -/
structure SwitchSTP where
  ports : List Port
  nodup : (ports.map Port.portNo).Nodup

namespace SwitchSTP

def getEnabledPorts (sw : SwitchSTP) : List (BitVec 32) :=
  (sw.ports.filter Port.broadcast).map Port.portNo

/-- The switch has the port, and its flag is set. -/
def Enabled (sw : SwitchSTP) (portNo : BitVec 32) : Prop :=
  ∃ p ∈ sw.ports, p.portNo = portNo ∧ p.broadcast = true

theorem enabled_iff {sw : SwitchSTP} {portNo : BitVec 32} :
    portNo ∈ sw.getEnabledPorts ↔ sw.Enabled portNo := by
  simp only [getEnabledPorts, Enabled, List.mem_map, List.mem_filter]
  exact exists_congr fun p => by tauto

theorem getEnabledPorts_nodup (sw : SwitchSTP) : sw.getEnabledPorts.Nodup :=
  sw.nodup.sublist (List.filter_sublist.map Port.portNo)

end SwitchSTP

/-- `switch_list`: the entries by datapath id, none of them null. -/
structure SwitchList where
  entries : List (BitVec 64 × SwitchSTP)
  nodup : (entries.map Prod.fst).Nodup

/-! ## broadcastPolicy -/

/-- `spawn`. -/
def spawn (sw : SwitchSTP) (inP : BitVec 32) : Policy :=
  sw.getEnabledPorts.foldl
    (fun spawn outP => if outP ≠ inP then spawn.add (fwd outP) else spawn) .stop

/-- `on_switch`. -/
def onSwitch (sw : SwitchSTP) : Policy :=
  sw.getEnabledPorts.foldl
    (fun onSwitch inP =>
      onSwitch.add (.sequential (.filter (inPortIs inP)) (spawn sw inP))) .stop

def broadcastPolicy (switchList : SwitchList) : Policy :=
  switchList.entries.foldl
    (fun broadcast entry =>
      broadcast.add (.sequential (.filter (switchIdIs entry.1)) (onSwitch entry.2))) .stop

/-! ## What it makes of a packet -/

/-- A copy for each enabled port but the one the packet came in at. -/
def copies (sw : SwitchSTP) (x : Packet) : Multiset Packet :=
  ((sw.getEnabledPorts.filter (· ≠ inPortOf x)).map fun outP => x.modify (outPortIs outP) :
    List Packet)

theorem spawn_outputs (sw : SwitchSTP) (x : Packet) :
    (spawn sw (inPortOf x)).outputs x = copies sw x := by
  have filtered : spawn sw (inPortOf x) =
      (sw.getEnabledPorts.filter (· ≠ inPortOf x)).foldl (fun sum outP => sum.add (fwd outP)) .stop := by
    rw [spawn, List.foldl_filter]
    simp
  rw [filtered, Policy.outputs_foldl_add, copies]
  generalize sw.getEnabledPorts.filter (· ≠ inPortOf x) = ports
  rw [Policy.outputs, zero_add]
  induction ports with
  | nil => rfl
  | cons p ports ih =>
      rw [List.map_cons, List.sum_cons, ih, List.map_cons, ← Multiset.cons_coe]
      rfl

theorem onSwitch_outputs (sw : SwitchSTP) (x : Packet) :
    (inPortOf x ∈ sw.getEnabledPorts → (onSwitch sw).outputs x = copies sw x) ∧
      (inPortOf x ∉ sw.getEnabledPorts → (onSwitch sw).outputs x = 0) := by
  obtain ⟨one, nothing⟩ := sum_map_key id (fun inP => (spawn sw inP).outputs x) (inPortOf x)
    (by simpa using sw.getEnabledPorts_nodup)
  have sum : (onSwitch sw).outputs x = (sw.getEnabledPorts.map fun inP =>
      if inPortOf x = id inP then (spawn sw inP).outputs x else 0).sum := by
    rw [onSwitch, Policy.outputs_foldl_add, Policy.outputs, zero_add]
    simp only [Policy.outputs_filter_sequential, test_inPortIs, id]
  constructor
  · intro enabled
    rw [sum, one _ enabled rfl, spawn_outputs]
  · intro disabled
    rw [sum]
    exact nothing fun inP mem eq => disabled (eq ▸ mem)

/-- **A packet of a listed switch that came in at a port with its flag set goes once to each other port
of the switch with its flag set, and no other packet goes anywhere.** -/
theorem broadcastPolicy_outputs (switchList : SwitchList) (x : Packet) :
    (∀ sw, (switchIdOf x, sw) ∈ switchList.entries → sw.Enabled (inPortOf x) →
      (broadcastPolicy switchList).outputs x =
        ((sw.ports.filter fun p => p.broadcast ∧ p.portNo ≠ inPortOf x).map fun p =>
          x.modify (outPortIs p.portNo) : List Packet)) ∧
    ((¬∃ sw, (switchIdOf x, sw) ∈ switchList.entries ∧ sw.Enabled (inPortOf x)) →
      (broadcastPolicy switchList).outputs x = 0) := by
  obtain ⟨one, nothing⟩ := sum_map_key Prod.fst
    (fun entry : BitVec 64 × SwitchSTP => (onSwitch entry.2).outputs x) (switchIdOf x) switchList.nodup
  have sum : (broadcastPolicy switchList).outputs x = (switchList.entries.map fun entry =>
      if switchIdOf x = entry.1 then (onSwitch entry.2).outputs x else 0).sum := by
    rw [broadcastPolicy, Policy.outputs_foldl_add, Policy.outputs, zero_add]
    simp only [Policy.outputs_filter_sequential, test_switchIdIs]
  constructor
  · intro sw mem enabled
    rw [sum, one _ mem rfl, (onSwitch_outputs sw x).1 (SwitchSTP.enabled_iff.mpr enabled), copies,
      SwitchSTP.getEnabledPorts, List.filter_map, List.map_map, List.filter_filter]
    simp [Function.comp_def, Bool.and_comm]
  · intro none
    rw [sum]
    by_cases listed : ∃ sw, (switchIdOf x, sw) ∈ switchList.entries
    · obtain ⟨sw, mem⟩ := listed
      rw [one _ mem rfl]
      exact (onSwitch_outputs sw x).2 fun enabled => none ⟨sw, mem, SwitchSTP.enabled_iff.mp enabled⟩
    · refine nothing fun entry mem eq => listed ⟨entry.2, ?_⟩
      rwa [← eq]

end Drunos.Topology
