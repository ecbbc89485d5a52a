/-
# Drunos.Oxm.OpenflowBasic — the field types runos defines

The types of `openflow_basic.hh` with their widths and whether they may be masked, as an instance
of `OxmTypes` that concrete packets and policies are written over. No general result depends on
this table.
-/
import Drunos.Oxm.FieldSet

namespace Drunos.Oxm

set_option autoImplicit false

abbrev OPENFLOW_BASIC : BitVec 16 := 0x8000
abbrev NON_OPENFLOW : BitVec 16 := 0x7406

/-- A type of one of the namespaces runos has types in. -/
def KnownNamespace (t : OxmType) : Prop := t.ns = OPENFLOW_BASIC ∨ t.ns = NON_OPENFLOW

abbrev switchId : OxmType := ⟨NON_OPENFLOW, 1⟩
abbrev outPort : OxmType := ⟨NON_OPENFLOW, 2⟩
abbrev inPort : OxmType := ⟨OPENFLOW_BASIC, 0⟩
abbrev ethDst : OxmType := ⟨OPENFLOW_BASIC, 3⟩
abbrev ethSrc : OxmType := ⟨OPENFLOW_BASIC, 4⟩
abbrev ethType : OxmType := ⟨OPENFLOW_BASIC, 5⟩
abbrev vlanVid : OxmType := ⟨OPENFLOW_BASIC, 6⟩
abbrev ipProto : OxmType := ⟨OPENFLOW_BASIC, 10⟩
abbrev ipv4Src : OxmType := ⟨OPENFLOW_BASIC, 11⟩
abbrev ipv4Dst : OxmType := ⟨OPENFLOW_BASIC, 12⟩
abbrev tcpSrc : OxmType := ⟨OPENFLOW_BASIC, 13⟩
abbrev tcpDst : OxmType := ⟨OPENFLOW_BASIC, 14⟩
abbrev udpSrc : OxmType := ⟨OPENFLOW_BASIC, 15⟩
abbrev udpDst : OxmType := ⟨OPENFLOW_BASIC, 16⟩
abbrev icmpType : OxmType := ⟨OPENFLOW_BASIC, 19⟩
abbrev icmpCode : OxmType := ⟨OPENFLOW_BASIC, 20⟩
abbrev arpOp : OxmType := ⟨OPENFLOW_BASIC, 21⟩
abbrev arpSpa : OxmType := ⟨OPENFLOW_BASIC, 22⟩
abbrev arpTpa : OxmType := ⟨OPENFLOW_BASIC, 23⟩
abbrev arpSha : OxmType := ⟨OPENFLOW_BASIC, 24⟩
abbrev arpTha : OxmType := ⟨OPENFLOW_BASIC, 25⟩
abbrev ipv6Src : OxmType := ⟨OPENFLOW_BASIC, 26⟩
abbrev ipv6Dst : OxmType := ⟨OPENFLOW_BASIC, 27⟩

/-- The number of bits of each defined type. -/
def widths : List (OxmType × Nat) :=
  [(switchId, 64), (outPort, 32), (inPort, 32), (ethType, 16), (ethSrc, 48), (ethDst, 48),
    (ipProto, 8), (ipv4Src, 32), (ipv4Dst, 32), (tcpSrc, 16), (tcpDst, 16), (udpSrc, 16),
    (udpDst, 16), (arpSpa, 32), (arpTpa, 32), (arpSha, 48), (arpTha, 48), (arpOp, 16),
    (vlanVid, 12), (ipv6Src, 128), (ipv6Dst, 128), (icmpType, 8), (icmpCode, 8)]

/-- The types that may be masked. -/
def maskables : List OxmType :=
  [ethSrc, ethDst, ipv4Src, ipv4Dst, arpSpa, arpTpa, arpSha, arpTha, ipv6Src, ipv6Dst]

/-- The namespaces that `FluidOXMAdapter` takes: both of NXM, OPENFLOW_BASIC and
EXPERIMENTER. -/
def openflow (t : OxmType) : Bool :=
  t.ns = 0x0000 || t.ns = 0x0001 || t.ns = OPENFLOW_BASIC || t.ns = 0xffff

/-- No field of the set makes `FluidOXMAdapter` throw. -/
def convertible [OxmTypes] (s : FieldSet) : Bool := s.fields.all fun f => openflow f.type

namespace OpenflowBasic

scoped instance : OxmTypes := ⟨fun t => (widths.lookup t).getD 0, fun t => maskables.contains t⟩

/-- A packet of zeros but for the given fields. -/
def packet (fields : List Field) : Packet := fields.foldl Packet.modify fun _ => 0

end OpenflowBasic

end Drunos.Oxm
