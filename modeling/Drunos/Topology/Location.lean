/-
# Drunos.Topology.Location — switches and their ports

`switch_and_port` of `ILinkDiscovery.hh`, and the fields of a packet that say where
it is: the switch, the port it came in at and the port it is sent to.
-/
import Drunos.Retic.Policy
import Drunos.Oxm.OpenflowBasic

namespace Drunos.Topology

open Drunos.Oxm Drunos.Retic Drunos.Theory
open scoped Drunos.Oxm.OpenflowBasic

set_option autoImplicit false

@[ext]
structure SwitchAndPort where
  dpid : BitVec 64
  port : BitVec 32
  deriving DecidableEq

namespace SwitchAndPort

/-- `operator<`: by switch, then by port. -/
def lt (a b : SwitchAndPort) : Bool :=
  a.dpid.toNat < b.dpid.toNat || (a.dpid == b.dpid && a.port.toNat < b.port.toNat)

theorem lt_asymm {a b : SwitchAndPort} (less : a.lt b = true) : b.lt a = false := by
  simp only [lt, Bool.or_eq_true, Bool.and_eq_true, decide_eq_true_eq, beq_iff_eq] at less
  simp only [lt, Bool.or_eq_false_iff, Bool.and_eq_false_iff, decide_eq_false_iff_not,
    beq_eq_false_iff_ne]
  rcases less with less | ⟨same, less⟩
  · exact ⟨by omega, .inl fun same => by rw [same] at less; omega⟩
  · exact ⟨by rw [same]; omega, .inr (by omega)⟩

theorem lt_total {a b : SwitchAndPort} (ne : a ≠ b) : a.lt b = true ∨ b.lt a = true := by
  obtain ⟨d, p⟩ := a
  obtain ⟨d', p'⟩ := b
  simp only [lt, Bool.or_eq_true, Bool.and_eq_true, decide_eq_true_eq, beq_iff_eq]
  by_cases same : d = d'
  · subst same
    have ports : p.toNat ≠ p'.toNat := fun eq => ne (by rw [BitVec.eq_of_toNat_eq eq])
    simp only [true_and]
    omega
  · have dpids : d.toNat ≠ d'.toNat := fun eq => same (BitVec.eq_of_toNat_eq eq)
    omega

end SwitchAndPort

/-! ## Where a packet is -/

def switchIdOf (x : Packet) : BitVec 64 := x switchId

def inPortOf (x : Packet) : BitVec 32 := x inPort

/-- `switch_id == dpid`. -/
def switchIdIs (dpid : BitVec 64) : Field := .exactly switchId dpid

/-- `in_port == port`. -/
def inPortIs (port : BitVec 32) : Field := .exactly inPort port

/-- `out_port << port`. -/
def outPortIs (port : BitVec 32) : Field := .exactly outPort port

def fwd (port : BitVec 32) : Policy := .modify (outPortIs port)

theorem test_switchIdIs (dpid : BitVec 64) (x : Packet) :
    x.test (switchIdIs dpid) = true ↔ switchIdOf x = dpid := by
  rw [Packet.test_iff]
  exact MaskedBits.exact_matches (Field.exactly_exact switchId dpid)

theorem test_inPortIs (port : BitVec 32) (x : Packet) :
    x.test (inPortIs port) = true ↔ inPortOf x = port := by
  rw [Packet.test_iff]
  exact MaskedBits.exact_matches (Field.exactly_exact inPort port)

/-- Of a sum over distinct keys, where only one key counts. -/
theorem sum_map_key {α κ M : Type} [AddCommMonoid M] [DecidableEq κ] (key : α → κ) (f : α → M)
    (k : κ) : ∀ {l : List α}, (l.map key).Nodup →
      (∀ a ∈ l, key a = k → (l.map fun a => if k = key a then f a else 0).sum = f a) ∧
        ((∀ a ∈ l, key a ≠ k) → (l.map fun a => if k = key a then f a else 0).sum = 0)
  | [], _ => ⟨fun _ mem => absurd mem List.not_mem_nil, fun _ => rfl⟩
  | a :: l, nodup => by
      obtain ⟨fresh, nodup⟩ := List.nodup_cons.mp nodup
      obtain ⟨one, nothing⟩ := sum_map_key key f k nodup
      rw [List.map_cons, List.sum_cons]
      refine ⟨fun b mem same => ?_, fun none => ?_⟩
      · rcases List.mem_cons.mp mem with rfl | later
        · have others : ∀ c ∈ l, key c ≠ k := fun c memC eq =>
            fresh (same.trans eq.symm ▸ List.mem_map_of_mem memC)
          rw [if_pos same.symm, nothing others, add_zero]
        · have ne : k ≠ key a := fun eq => fresh (eq ▸ same ▸ List.mem_map_of_mem later)
          rw [if_neg ne, one b later same, zero_add]
      · obtain ⟨ne, none⟩ := List.forall_mem_cons.mp none
        rw [if_neg ne.symm, nothing none, zero_add]

end Drunos.Topology
