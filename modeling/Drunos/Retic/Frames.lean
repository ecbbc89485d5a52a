/-
# Drunos.Retic.Frames — looking up the frame of a packet-in

The packet that `Retic` looks up is a `PacketParser`. Its `test` is the one of `Packet`,
which loads, and a load of a type that has no place throws. So the lookup of an accepted
frame throws no `out_of_range` exactly when the frame carries every field that is asked
for on its way (`traverse_frame`).
-/
import Drunos.Parser.Frame
import Drunos.Retic.Carried

namespace Drunos.Parser

open Drunos.Oxm Drunos.Theory Bits

set_option autoImplicit false

/-! ## The interface -/

theorem PacketParser.binds_toOption (p : PacketParser) (t : OxmType) :
    (p.access t).toOption.isSome ↔ p.Binds t := by
  unfold PacketParser.Binds
  cases p.access t <;> simp [Except.toOption]

section

variable [OxmTypes]

/-- `Packet::test`: what is loaded under the mask has the bits. -/
def PacketParser.test (p : PacketParser) (need : Field) : Except ParserError Bool := do
  let place ← p.access need.type
  let read := MaskedBits.read (ofBuffer (nbits need.type) p.memory place) need.bits.mask
  return decide (read.Compatible need.bits)

/-- Every error of the parser is an `out_of_range` here: no other one is thrown by `access`. -/
instance : PacketView PacketParser where
  load p m := (p.access m.type).toOption.map fun place =>
    .read (ofBuffer (nbits m.type) p.memory place) m.bits
  test p need := (p.test need).toOption
  modify p patch := (p.modify patch).toOption

/-- The view loads what the parser loads. -/
theorem PacketParser.load_view (p : PacketParser) (m : Mask) :
    (p.load m).toOption = (PacketView.load p m).map (Oxm.Field.mk m.type) := by
  show (p.load m).toOption = ((p.access m.type).toOption.map _).map _
  rw [PacketParser.load]
  cases p.access m.type <;> rfl

instance : Retic.Carrier PacketParser where
  Has p t := p.Binds t
  load_isSome p m := by
    rw [← p.binds_toOption]
    show ((p.access m.type).toOption.map _).isSome ↔ _
    rw [Option.isSome_map]
  test_isSome p f := by
    rw [← p.binds_toOption]
    show (p.test f).toOption.isSome ↔ _
    rw [PacketParser.test]
    cases p.access f.type <;> simp [Except.toOption, bind, Except.bind, pure, Except.pure]
  modify_isSome p f := by
    rw [← p.binds_toOption]
    show (p.modify f).toOption.isSome ↔ _
    rw [PacketParser.modify]
    cases p.access f.type <;> simp [Except.toOption, bind, Except.bind, pure, Except.pure]
  modify_has {p q f} modified t := by
    have modified : (p.modify f).toOption = some q := modified
    rw [PacketParser.modify] at modified
    cases found : p.access f.type with
    | error e => rw [found] at modified; cases modified
    | ok place =>
        rw [found] at modified
        injection modified with same
        subst same
        rfl

end

end Drunos.Parser

namespace Drunos.Retic

open Drunos.Oxm Drunos.Theory Drunos.Parser

set_option autoImplicit false

section

variable [OxmTypes]

/-- **An accepted frame is looked up as a switch does it, without an `out_of_range`, exactly when
it carries every field that is asked for on its way.** -/
theorem traverse_frame {pi : PacketIn} {dpid : BitVec 64} {out : BitVec 32} {p : PacketParser}
    (accepted : PacketParser.construct pi dpid out = .ok p) (backend : Bool) (d : Fdd)
    (match' : FieldSet) : LooksUp backend p d match' ↔
      ∀ t, Asks backend p d match' t → t ∈ carried pi := by
  rw [looksUp_iff]
  exact forall_congr' fun t => imp_congr_right fun _ => PacketParser.construct_carried accepted t

end

section

open scoped Drunos.Oxm.OpenflowBasic
open Drunos.Oxm.OpenflowBasic

/-- An ARP request. -/
def arpFrame : PacketIn where
  data := some (List.replicate 12 0 ++ [0x08, 0x06, 0, 1, 0x08, 0, 6, 4, 0, 1] ++ List.replicate 20 0)
  inPort := 1

/-- A filter for a TCP port is compiled, and for the ARP request the lookup throws; a switch takes
the negative side. -/
theorem arpFrame_throws : ∃ p d, PacketParser.construct arpFrame 1 0 = .ok p ∧
    compile (.filter (.exactly tcpDst 80#16)) = some d ∧ traverse true p d ∅ = throw .outOfRange ∧
      traverse true (AsSwitch.mk p) d ∅ = pure ⟨d, .stop, []⟩ ∧ ¬LooksUp true p d ∅ := by
  have lacks {p : PacketParser} (accepted : PacketParser.construct arpFrame 1 0 = .ok p) :
      ¬Carrier.Has p tcpDst :=
    mt (PacketParser.construct_carried accepted tcpDst).mp (by decide)
  have accepted : ∃ p, PacketParser.construct arpFrame 1 0 = .ok p := ⟨_, rfl⟩
  obtain ⟨p, accepted⟩ := accepted
  have throws : ∀ pos neg : Fdd,
      traverse true p (.node (.exactly tcpDst 80#16) pos neg) ∅ = throw .outOfRange :=
    fun pos neg => traverse_throws (.node (.exactly tcpDst 80#16) pos neg ∅) (lacks accepted)
  refine ⟨p, _, accepted, rfl, throws _ _, ?_, fun looksUp => looksUp.returns (throws _ _)⟩
  have missing : PacketView.test p (.exactly tcpDst 80#16) = none :=
    Option.not_isSome_iff_eq_none.mp (mt (Carrier.test_isSome p _).mp (lacks accepted))
  have fails : PacketView.test (AsSwitch.mk p) (.exactly tcpDst 80#16) = some false := by
    show some ((PacketView.test p (.exactly tcpDst 80#16)).getD false) = some false
    rw [missing]
    rfl
  rw [traverse, ofPacket_some fails, pure_bind, if_neg Bool.false_ne_true, traverse_plain rfl]
  rfl

/-- The operation of the ARP request, which it carries. -/
theorem traverse_frame_arp : ∃ p d, PacketParser.construct arpFrame 1 0 = .ok p ∧
    compile (.filter (.exactly arpOp 1#16)) = some d ∧ LooksUp true p d ∅ := by
  obtain ⟨p, accepted⟩ : ∃ p, PacketParser.construct arpFrame 1 0 = .ok p := ⟨_, rfl⟩
  refine ⟨p, _, accepted, rfl, (traverse_frame accepted true _ ∅).mpr fun t asks => ?_⟩
  have plain {l : Leaf TraceTree} {s : FieldSet} (none : l.hasBody = false) :
      ¬Asks true p (.leaf l) s t := by
    intro asks
    cases asks <;> simp_all
  cases asks with
  | node => decide
  | positive has below => exact absurd below (plain rfl)
  | negative fails below => exact absurd below (plain rfl)

end

end Drunos.Retic
