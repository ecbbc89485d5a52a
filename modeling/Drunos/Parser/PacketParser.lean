/-
# Drunos.Parser.PacketParser — the packet of a packet-in message

`PacketParser` finds the headers of a frame and binds the types of their fields to
the bytes they stand in. It lays nothing out anew: a bound type is a place in the
message (or in the parser itself, for the ports and the switch), a load reads there
and a modification writes there.

The model keeps the bytes as a memory and each binding as an address of it. The
offsets are those of `packet_headers.hh`.
-/
import Drunos.Oxm.OpenflowBasic

namespace Drunos.Parser

open Drunos.Oxm Drunos.Theory

set_option autoImplicit false

abbrev Byte := BitVec 8

/-! ## Memory -/

/-- A place in memory, by what it is near to. -/
inductive Address where
  /-- So many bytes after the first one of the captured data. -/
  | frame (i : Int)
  /-- So many bytes after the first one of `in_port`, which stands before `out_port` and
  `switch_id` in the parser. -/
  | members (i : Int)
  deriving DecidableEq

def Address.shift : Address → Int → Address
  | .frame i, k => .frame (i + k)
  | .members i, k => .members (i + k)

abbrev Memory := Address → Byte

namespace Bits

/-- The bytes that so many bits take. -/
def numBlocks (n : Nat) : Nat := n / 8 + if n % 8 = 0 then 0 else 1

/-- The bytes the constructor `bits(n, buffer)` reads. It goes backwards from the last one, and
its end is the reverse iterator over `buffer - 1`, which stands after `buffer[-1]`. -/
def readRange (n : Nat) (buffer : Address) : List Address :=
  (List.range (numBlocks n + 1)).map fun k : Nat => buffer.shift (numBlocks n - 1 - k)

/-- The bytes `to_buffer` writes. -/
def writeRange (n : Nat) (buffer : Address) : List Address :=
  (List.range (numBlocks n)).map fun k : Nat => buffer.shift (numBlocks n - 1 - k)

/-- The number with these blocks, the least significant one first. -/
def ofBlocks : List Byte → Nat
  | [] => 0
  | b :: rest => b.toNat + 256 * ofBlocks rest

/-- `bits(n, buffer)`: the blocks that are read, cut to the size. -/
def ofBuffer (n : Nat) (m : Memory) (buffer : Address) : BitVec n :=
  BitVec.ofNat n (ofBlocks ((readRange n buffer).map m))

def toBuffer {n : Nat} (v : BitVec n) (buffer : Address) (m : Memory) : Memory :=
  (List.range (numBlocks n)).foldl
    (fun m (k : Nat) =>
      Function.update m (buffer.shift (numBlocks n - 1 - k)) (v.extractLsb' (8 * k) 8)) m

end Bits

open Bits

/-! ## The parser -/

inductive ParserError where
  | invalidArgument (msg : String) (ns : BitVec 16) (field : Nat)
  | outOfRange (msg : String) (ns : BitVec 16) (field : Option Nat)
  /-- `std::array::at`. -/
  | noElement (field : Nat)
  | nullptrDereference
  deriving DecidableEq

/-- What the parser reads of a packet-in message. -/
structure PacketIn where
  /-- `none` is a null pointer. -/
  data : Option (List Byte)
  inPort : BitVec 32

abbrev Bindings := List (Option Address)

structure PacketParser where
  memory : Memory
  dataLen : Nat
  ofbBindings : Bindings
  nonofBindings : Bindings
  /-- The checked pointer of this name, as the offset of the header. -/
  ipv6 : Option Nat

/-- One binding of a `bind` call. -/
def bindAt (ns : BitVec 16) (bindings : Bindings) (id : Nat) (place : Address) :
    Except ParserError Bindings :=
  match bindings[id]? with
  | none => .error (.noElement id)
  | some (some _) => .error (.invalidArgument "Trying to bind already binded field" ns id)
  | some none => .ok (bindings.set id (some place))

def bindAll (ns : BitVec 16) (bindings : Bindings) :
    List (OxmType × Address) → Except ParserError Bindings
  | [] => .ok bindings
  | (t, place) :: rest => do
    let bindings ← bindAt ns bindings t.id.toNat place
    bindAll ns bindings rest

namespace PacketParser

/-- `bind(ofb_binding_list)`. -/
def bindOfb (p : PacketParser) (new : List (OxmType × Address)) : Except ParserError PacketParser := do
  let bindings ← bindAll OPENFLOW_BASIC p.ofbBindings new
  return { p with ofbBindings := bindings }

/-- `bind(nonof_binding_list)`. -/
def bindNonof (p : PacketParser) (new : List (OxmType × Address)) :
    Except ParserError PacketParser := do
  let bindings ← bindAll NON_OPENFLOW p.nonofBindings new
  return { p with nonofBindings := bindings }

def byte (p : PacketParser) (i : Nat) : Byte := p.memory (.frame i)

/-- A `big_uint16_t`. -/
def word (p : PacketParser) (i : Nat) : BitVec 16 := p.byte i ++ p.byte (i + 1)

def parseL4 (p : PacketParser) (protocol : Byte) (data dataLen : Nat) :
    Except ParserError PacketParser :=
  if protocol = 0x06 then
    if 20 ≤ dataLen then
      p.bindOfb [(tcpSrc, .frame data), (tcpDst, .frame (data + 2))]
    else .ok p
  else if protocol = 0x11 then
    if 8 ≤ dataLen then
      p.bindOfb [(udpSrc, .frame data), (udpDst, .frame (data + 2))]
    else .ok p
  else if protocol = 0x01 then
    if 4 ≤ dataLen then
      p.bindOfb [(icmpType, .frame data), (icmpCode, .frame (data + 1))]
    else .ok p
  else .ok p

/-- `ipv4_hdr::header_length`: the low bits of the first byte, in words of four bytes. -/
def ipv4HeaderLength (p : PacketParser) (data : Nat) : Nat :=
  ((p.byte data).extractLsb' 0 4).toNat * 4

def ipv6HeaderLength : Nat := 40

def parseIpv4 (p : PacketParser) (data dataLen : Nat) : Except ParserError PacketParser :=
  if 20 ≤ dataLen then do
    let p ← p.bindOfb [(ipProto, .frame (data + 9)), (ipv4Src, .frame (data + 12)),
      (ipv4Dst, .frame (data + 16))]
    if p.ipv4HeaderLength data < dataLen then
      p.parseL4 (p.byte (data + 9)) (data + p.ipv4HeaderLength data)
        (dataLen - p.ipv4HeaderLength data)
    else return p
  else .ok p

def parseArp (p : PacketParser) (data dataLen : Nat) : Except ParserError PacketParser :=
  if 28 ≤ dataLen then
    if p.word data ≠ 1 ∨ p.word (data + 2) ≠ 0x0800 ∨ p.byte (data + 4) ≠ 6 ∨
        p.byte (data + 5) ≠ 4 then .ok p
    else
      p.bindOfb [(arpOp, .frame (data + 6)), (arpSha, .frame (data + 8)),
        (arpTha, .frame (data + 18)), (arpSpa, .frame (data + 14)), (arpTpa, .frame (data + 24))]
  else .ok p

def parseIpv6 (p : PacketParser) (data dataLen : Nat) : Except ParserError PacketParser := do
  let p ←
    if 40 ≤ dataLen then
      bindOfb { p with ipv6 := some data } [(ipv6Src, .frame (data + 8)),
        (ipv6Dst, .frame (data + 24)), (ipProto, .frame (data + 6))]
    else .ok p
  -- the length of the header is asked of the pointer whether or not there was room for it
  match p.ipv6 with
  | none => .error .nullptrDereference
  | some header =>
    if ipv6HeaderLength < dataLen then
      p.parseL4 (p.byte (header + 6)) (data + ipv6HeaderLength) (dataLen - ipv6HeaderLength)
    else return p

def parseL3 (p : PacketParser) (ethType : BitVec 16) (data dataLen : Nat) :
    Except ParserError PacketParser :=
  if ethType = 0x0800 then p.parseIpv4 data dataLen
  else if ethType = 0x0806 then p.parseArp data dataLen
  else if ethType = 0x86dd then p.parseIpv6 data dataLen
  else .ok p

def parseL2 (p : PacketParser) (dataLen : Nat) : Except ParserError PacketParser :=
  if 14 ≤ dataLen then
    if p.word 12 = 0x8100 then
      if 18 ≤ dataLen then do
        let p ← p.bindOfb [(ethType, .frame 16), (ethSrc, .frame 6), (ethDst, .frame 0),
          (vlanVid, .frame 14)]
        p.parseL3 (p.word 16) 18 (dataLen - 18)
      else p.parseL3 0 0 dataLen
    else do
      let p ← p.bindOfb [(ethType, .frame 12), (ethSrc, .frame 6), (ethDst, .frame 0)]
      p.parseL3 (p.word 12) 14 (dataLen - 14)
  else .ok p

end PacketParser

/-- The bytes of a number, the most significant one first. -/
def bigEndian {n : Nat} (v : BitVec n) : List Byte :=
  (List.range (n / 8)).map fun k => v.extractLsb' (n - 8 * (k + 1)) 8

/-- Memory as the constructor finds it. Its bytes away from the frame and the members are
unknown, and no part of a value that is loaded. -/
def PacketIn.memory (pi : PacketIn) (dpid : BitVec 64) (out : BitVec 32) : Memory
  | .frame i => if 0 ≤ i then (pi.data.getD []).getD i.toNat 0 else 0
  | .members i =>
    if 0 ≤ i then (bigEndian pi.inPort ++ bigEndian out ++ bigEndian dpid).getD i.toNat 0 else 0

namespace PacketParser

/-- The parser before anything is bound. -/
def init (pi : PacketIn) (dpid : BitVec 64) (out : BitVec 32) : PacketParser where
  memory := pi.memory dpid out
  dataLen := (pi.data.getD []).length
  ofbBindings := .replicate 40 none
  nonofBindings := .replicate 20 none
  ipv6 := none

/-- The constructor. -/
def construct (pi : PacketIn) (dpid : BitVec 64) (out : BitVec 32) :
    Except ParserError PacketParser := do
  let p ← (init pi dpid out).bindOfb [(inPort, .members 0)]
  let p ← p.bindNonof [(switchId, .members 8)]
  let p ← p.bindNonof [(outPort, .members 4)]
  match pi.data with
  | none => return p
  | some data => p.parseL2 data.length

/-! ## Loads and modifications -/

/-- The place of a type. -/
def access (p : PacketParser) (t : OxmType) : Except ParserError Address :=
  if t.ns = OPENFLOW_BASIC then
    match p.ofbBindings[t.id.toNat]? with
    | some (some place) => .ok place
    | _ => .error (.outOfRange "Unsupported oxm field" t.ns (some t.id.toNat))
  else if t.ns = NON_OPENFLOW then
    match p.nonofBindings[t.id.toNat]? with
    | some (some place) => .ok place
    | _ => .error (.outOfRange "Unsupported oxm field" t.ns (some t.id.toNat))
  else .error (.outOfRange "Unsupported oxm namespace" t.ns none)

variable [OxmTypes]

def load (p : PacketParser) (mask : Mask) : Except ParserError Field := do
  let place ← p.access mask.type
  return .ofMask mask (ofBuffer (nbits mask.type) p.memory place)

/-- The fields of the patch over the value that stands there, all of it written back. -/
def modify (p : PacketParser) (patch : Field) : Except ParserError PacketParser := do
  let place ← p.access patch.type
  let value := ofBuffer (nbits patch.type) p.memory place
  return { p with memory := toBuffer (patch.bits.write value) place p.memory }

end PacketParser

end Drunos.Parser
