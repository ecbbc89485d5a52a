/-
# Drunos.Topology.LldpFrames — the frames of link discovery

`lldp_packet` of `LinkDiscovery.cc` is a record of 50 bytes that `sendLLDP` fills and the handler of
`getPolicy` lays over the bytes of a received frame. The handler compares nothing in it: a frame that is
too short is reported and used all the same, with what its last members held before, and a frame of
another speaker is read at the places where runos would have put its values.

So a beacon is queued for every frame of the ethertype, and rightly so exactly if the frame has the
layout (`beacon_layout_iff`). A frame of `sendLLDP` is read as it was written, and the two ends of the
link are queued in ascending order.
-/
import Drunos.Parser.Writes
import Drunos.Topology.LinkDiscovery
import Mathlib.Tactic.IntervalCases

namespace Drunos.Topology

open Drunos.Oxm Drunos.Parser Drunos.Retic Drunos.Theory
open scoped Drunos.Oxm.OpenflowBasic

set_option autoImplicit false

/-! ## lldp_packet -/

abbrev LLDP_ETH_TYPE : BitVec 16 := 0x88cc
abbrev LLDP_CHASSIS_ID_TLV : BitVec 16 := 1
abbrev LLDP_PORT_ID_TLV : BitVec 16 := 2
abbrev LLDP_TTL_TLV : BitVec 16 := 3
abbrev LLDP_CHASSIS_ID_SUB_MAC : BitVec 8 := 4
abbrev LLDP_PORT_ID_SUB_COMPONENT : BitVec 8 := 2

def lldpTlvHeader (type length : BitVec 16) : BitVec 16 := type <<< 9 ||| length

structure LldpPacket where
  dstMac : BitVec 48 := 0x0180c200000e
  srcMac : BitVec 48
  ethType : BitVec 16 := LLDP_ETH_TYPE
  chassisIdHeader : BitVec 16 := lldpTlvHeader LLDP_CHASSIS_ID_TLV 7
  chassisIdSub : BitVec 8 := LLDP_CHASSIS_ID_SUB_MAC
  chassisIdSubMac : BitVec 48
  portIdHeader : BitVec 16 := lldpTlvHeader LLDP_PORT_ID_TLV 5
  portIdSub : BitVec 8 := LLDP_PORT_ID_SUB_COMPONENT
  portIdSubComponent : BitVec 32
  ttlHeader : BitVec 16 := lldpTlvHeader LLDP_TTL_TLV 2
  ttlSeconds : BitVec 16
  dpidHeader : BitVec 16 := lldpTlvHeader 127 12
  dpidOui : BitVec 24 := 0x0026e1
  dpidSub : BitVec 8 := 0
  dpidData : BitVec 64
  end_ : BitVec 16 := 0

/-- The members that have no value of their own. -/
structure LldpValues where
  srcMac : BitVec 48
  chassisIdSubMac : BitVec 48
  portIdSubComponent : BitVec 32
  ttlSeconds : BitVec 16
  dpidData : BitVec 64

namespace LldpPacket

/-- A packet with these values in the members that have none of their own. -/
def ofValues (v : LldpValues) : LldpPacket where
  srcMac := v.srcMac
  chassisIdSubMac := v.chassisIdSubMac
  portIdSubComponent := v.portIdSubComponent
  ttlSeconds := v.ttlSeconds
  dpidData := v.dpidData

/-- The record in memory. -/
def bytes (p : LldpPacket) : List Byte :=
  bigEndian p.dstMac ++ (bigEndian p.srcMac ++ (bigEndian p.ethType ++
    (bigEndian p.chassisIdHeader ++ (bigEndian p.chassisIdSub ++ (bigEndian p.chassisIdSubMac ++
    (bigEndian p.portIdHeader ++ (bigEndian p.portIdSub ++ (bigEndian p.portIdSubComponent ++
    (bigEndian p.ttlHeader ++ (bigEndian p.ttlSeconds ++ (bigEndian p.dpidHeader ++
    (bigEndian p.dpidOui ++ (bigEndian p.dpidSub ++ (bigEndian p.dpidData ++
    bigEndian p.end_))))))))))))))

/-- A big-endian member at its place. -/
def member (n : Nat) (buffer : List Byte) (place : Nat) : BitVec n :=
  BitVec.ofNat n (Bits.ofBlocks ((buffer.drop place).take (n / 8)).reverse)

/-- The members of the record that lies in memory. -/
def ofBytes (buffer : List Byte) : LldpPacket where
  dstMac := member 48 buffer 0
  srcMac := member 48 buffer 6
  ethType := member 16 buffer 12
  chassisIdHeader := member 16 buffer 14
  chassisIdSub := member 8 buffer 16
  chassisIdSubMac := member 48 buffer 17
  portIdHeader := member 16 buffer 23
  portIdSub := member 8 buffer 25
  portIdSubComponent := member 32 buffer 26
  ttlHeader := member 16 buffer 30
  ttlSeconds := member 16 buffer 32
  dpidHeader := member 16 buffer 34
  dpidOui := member 24 buffer 36
  dpidSub := member 8 buffer 39
  dpidData := member 64 buffer 40
  end_ := member 16 buffer 48

end LldpPacket

/-! ## Sending -/

/-- A packet-out message: the port of its action and its data. -/
structure PacketOut where
  port : BitVec 32
  data : List Byte

/-- The packet that `sendLLDP` fills. -/
def lldpOf (mac : Fin 6 → Byte) (dpid : BitVec 64) (portNo : BitVec 32) (pollInterval : BitVec 16) :
    LldpPacket :=
  .ofValues
    { srcMac :=
        ((mac 0).setWidth 64 <<< 40 ||| (mac 1).setWidth 64 <<< 32 ||| (mac 2).setWidth 64 <<< 24 |||
          (mac 3).setWidth 64 <<< 16 ||| (mac 4).setWidth 64 <<< 8 ||| (mac 5).setWidth 64).setWidth 48
      chassisIdSubMac := dpid.setWidth 48
      portIdSubComponent := portNo
      ttlSeconds := pollInterval
      dpidData := dpid }

/-- The packet is sent three times. -/
def sendLLDP (mac : Fin 6 → Byte) (dpid : BitVec 64) (portNo : BitVec 32) (pollInterval : BitVec 16) :
    List PacketOut :=
  List.replicate 3 ⟨portNo, (lldpOf mac dpid portNo pollInterval).bytes⟩

/-! ## Receiving -/

/-- `serialize_to`: what the buffer holds then, and how many bytes of it are the packet's. -/
def serializeTo (p : PacketParser) (bufferSize : Nat) (buffer : List Byte) : List Byte × Nat :=
  let copied := min p.dataLen bufferSize
  ((List.range copied).map p.byte ++ buffer.drop copied, copied)

/-- The value of a type. -/
def loadValue (p : PacketParser) (t : OxmType) : Except ParserError (BitVec (nbits t)) := do
  let place ← p.access t
  return p.valueAt t place

/-- It is what a load of all bits reads. -/
theorem loadValue_load (p : PacketParser) (t : OxmType) :
    p.load ⟨t, BitVec.allOnes _⟩ =
      (loadValue p t).map fun value => .ofMask ⟨t, BitVec.allOnes _⟩ value := by
  rw [PacketParser.load, loadValue]
  cases p.access t <;> rfl

/-- `filter`. -/
def passes (p : PacketParser) (need : Field) : Except ParserError Bool := do
  let value ← loadValue p need.type
  return need.bits.Matches value

/-- The handler of `getPolicy`: the ends of the link that it queues for `handleBeacon`, and what it
returns. The members of the record that have no value of their own hold anything before. -/
def beaconHandler (uninitialized : LldpValues) (pkt : PacketParser) :
    Except ParserError ((SwitchAndPort × SwitchAndPort) × Policy) := do
  -- fewer bytes than the size of the record are reported only
  let (buffer, _) := serializeTo pkt 50 (LldpPacket.ofValues uninitialized).bytes
  let lldp := LldpPacket.ofBytes buffer
  let source : SwitchAndPort := ⟨lldp.dpidData, lldp.portIdSubComponent⟩
  let dpid ← loadValue pkt switchId
  let port ← loadValue pkt inPort
  return (LinkDiscovery.ordered source ⟨dpid, port⟩, .flowSettings ⟨0, 0⟩)

/-- The frame begins with the record, whatever the values. -/
def CarriesLayout (frame : List Byte) : Prop :=
  ∃ values, (LldpPacket.ofValues values).bytes <+: frame

/-! ## A record that is read back -/

theorem ofBlocks_bigEndian {n : Nat} (whole : n % 8 = 0) (v : BitVec n) :
    Bits.ofBlocks (bigEndian v).reverse = v.toNat := by
  refine Nat.eq_of_testBit_eq fun i => ?_
  rw [Bits.ofBlocks_testBit]
  have blocks : (bigEndian v).reverse =
      (List.range (n / 8)).map fun k => v.extractLsb' (8 * k) 8 := by
    refine List.ext_getElem (by simp [bigEndian]) fun k bound bound' => ?_
    have few : k < n / 8 := by simpa using bound'
    have back : n - 8 * (n / 8 - 1 - k + 1) = 8 * k := by omega
    simp [bigEndian, back]
  rw [blocks, List.getD_eq_getElem?_getD, List.getElem?_map]
  by_cases inside : i / 8 < n / 8
  · have byte : i % 8 < 8 := Nat.mod_lt _ (by decide)
    have bit : 8 * (i / 8) + i % 8 = i := by omega
    simp [inside, byte, bit, BitVec.testBit_toNat]
  · have outside : n ≤ i := by omega
    have none : (List.range (n / 8))[i / 8]? = none := by simpa using inside
    simp [none, BitVec.testBit_toNat, BitVec.getLsbD_of_ge _ _ outside]

namespace LldpPacket

theorem length_bigEndian {n : Nat} (v : BitVec n) : (bigEndian v).length = n / 8 := by
  simp [bigEndian]

theorem member_here {n : Nat} (whole : n % 8 = 0) (v : BitVec n) (rest : List Byte) :
    member n (bigEndian v ++ rest) 0 = v := by
  rw [member, List.drop_zero, ← length_bigEndian v, List.take_left, ofBlocks_bigEndian whole,
    BitVec.ofNat_toNat, BitVec.setWidth_eq]

theorem member_skip {n m place : Nat} (v : BitVec m) (rest : List Byte) (later : m / 8 ≤ place) :
    member n (bigEndian v ++ rest) place = member n rest (place - m / 8) := by
  rw [member, member, List.drop_append, List.drop_of_length_le (by rw [length_bigEndian]; exact later),
    length_bigEndian, List.nil_append]

/-- Whatever follows it, a record is read as it was written. -/
theorem ofBytes_bytes (p : LldpPacket) (rest : List Byte) : ofBytes (p.bytes ++ rest) = p := by
  simp [ofBytes, bytes, member_here, member_skip]

@[simp] theorem length_bytes (p : LldpPacket) : p.bytes.length = 50 := by
  simp [bytes, length_bigEndian]

end LldpPacket

/-! ## The parser of a frame -/

theorem ofBuffer_bigEndian {n : Nat} (whole : n % 8 = 0) (v : BitVec n) {m : Memory} {place : Address}
    (there : ∀ k < n / 8, m (place.shift k) = (bigEndian v).getD k 0) :
    Bits.ofBuffer n m place = v := by
  refine BitVec.eq_of_getLsbD_eq fun i bound => ?_
  have blocks : Bits.numBlocks n = n / 8 := by simp [Bits.numBlocks, whole]
  have few : i / 8 < n / 8 := by omega
  have at_ : Bits.placeOf n place i = place.shift ((n / 8 - 1 - i / 8 : Nat) : Int) := by
    rw [Bits.placeOf, blocks]
    congr 1
    omega
  have low : n - 8 * (n / 8 - 1 - i / 8 + 1) = 8 * (i / 8) := by omega
  have bit : 8 * (i / 8) + i % 8 = i := by omega
  rw [Bits.ofBuffer_bit m place bound, at_, there _ (by omega)]
  have inside : n / 8 - 1 - i / 8 < n / 8 := by omega
  have byte : i % 8 < 8 := Nat.mod_lt _ (by decide)
  simp [bigEndian, inside, low, bit, byte]

section

variable {pi : PacketIn} {dpid : BitVec 64} {out : BitVec 32} {pkt : PacketParser}

theorem inPort_loaded (made : PacketParser.construct pi dpid out = .ok pkt) :
    loadValue pkt inPort = .ok pi.inPort := by
  have ext := (PacketParser.construct_made made).1
  rw [loadValue, ext.keeps inPort (.members 0) rfl]
  refine congrArg Except.ok ?_
  rw [PacketParser.valueAt, ext.memory]
  refine ofBuffer_bigEndian (n := 32) (by decide) pi.inPort fun k few => ?_
  interval_cases k <;> rfl

theorem switchId_loaded (made : PacketParser.construct pi dpid out = .ok pkt) :
    loadValue pkt switchId = .ok dpid := by
  have ext := (PacketParser.construct_made made).1
  rw [loadValue, ext.keeps switchId (.members 8) rfl]
  refine congrArg Except.ok ?_
  rw [PacketParser.valueAt, ext.memory]
  refine ofBuffer_bigEndian (n := 64) (by decide) dpid fun k few => ?_
  interval_cases k <;> rfl

theorem byte_eq (made : PacketParser.construct pi dpid out = .ok pkt) (i : Nat) :
    pkt.byte i = (pi.data.getD []).getD i 0 := by
  have ext := (PacketParser.construct_made made).1
  rw [PacketParser.byte, ext.memory]
  show PacketIn.memory pi dpid out (.frame i) = _
  simp [PacketIn.memory]

theorem serializeTo_eq (made : PacketParser.construct pi dpid out = .ok pkt) (buffer : List Byte) :
    serializeTo pkt 50 buffer =
      ((pi.data.getD []).take 50 ++ buffer.drop (min (pi.data.getD []).length 50),
        min (pi.data.getD []).length 50) := by
  have ext := (PacketParser.construct_made made).1
  have len : pkt.dataLen = (pi.data.getD []).length := ext.dataLen
  have copied : (List.range (min pkt.dataLen 50)).map pkt.byte = (pi.data.getD []).take 50 := by
    refine List.ext_getElem (by simp [len, Nat.min_comm]) fun i bound bound' => ?_
    have inside : i < (pi.data.getD []).length := by
      rw [List.length_take] at bound'
      omega
    simp [byte_eq made, inside]
  rw [serializeTo, copied, len]

/-- What is queued for a frame: what stands at the places of the sender's values, or what the record
held before where the frame is too short, and the place it came in at. -/
theorem beaconHandler_eq (made : PacketParser.construct pi dpid out = .ok pkt)
    (uninitialized : LldpValues) :
    let frame := pi.data.getD []
    let lldp := LldpPacket.ofBytes
      (frame.take 50 ++ (LldpPacket.ofValues uninitialized).bytes.drop (min frame.length 50))
    beaconHandler uninitialized pkt =
      .ok (LinkDiscovery.ordered ⟨lldp.dpidData, lldp.portIdSubComponent⟩ ⟨dpid, pi.inPort⟩,
        .flowSettings ⟨0, 0⟩) := by
  intro frame lldp
  rw [beaconHandler, serializeTo_eq made, inPort_loaded made, switchId_loaded made]
  rfl

/-- The parser of a frame of the ethertype without a tag. -/
def lldpParser (pi : PacketIn) (dpid : BitVec 64) (out : BitVec 32) : PacketParser :=
  { PacketParser.started pi dpid out with
    ofbBindings := (((PacketParser.started pi dpid out).ofbBindings.set 5 (some (.frame 12))).set 4
      (some (.frame 6))).set 3 (some (.frame 0)) }

theorem construct_lldpParser (some : pi.data.isSome = true) (size : 14 ≤ (pi.data.getD []).length)
    (own : (PacketParser.started pi dpid out).word 12 = LLDP_ETH_TYPE) :
    PacketParser.construct pi dpid out = .ok (lldpParser pi dpid out) := by
  have long : 14 ≤ (PacketParser.started pi dpid out).dataLen := size
  have bound : (PacketParser.started pi dpid out).bindOfb
      [(ethType, .frame 12), (ethSrc, .frame 6), (ethDst, .frame 0)] =
        .ok (lldpParser pi dpid out) := rfl
  have same : (lldpParser pi dpid out).word 12 = LLDP_ETH_TYPE := own
  rw [PacketParser.construct_eq, if_pos some, PacketParser.parseL2, if_pos long, own,
    if_neg (by decide), bound]
  show (lldpParser pi dpid out).parseL3 ((lldpParser pi dpid out).word 12) 14 _ = _
  rw [same]
  rfl

theorem passes_lldpParser (first : (pi.data.getD []).getD 12 0 = 0x88)
    (second : (pi.data.getD []).getD 13 0 = 0xcc) :
    passes (lldpParser pi dpid out) (.exactly ethType LLDP_ETH_TYPE) = .ok true := by
  have value : loadValue (lldpParser pi dpid out) ethType = .ok LLDP_ETH_TYPE := by
    refine congrArg Except.ok (ofBuffer_bigEndian (n := 16) (by decide) LLDP_ETH_TYPE fun k few => ?_)
    show (pi.data.getD []).getD (12 + (k : Int)).toNat 0 = _
    interval_cases k
    · exact first
    · exact second
  have passed : passes (lldpParser pi dpid out) (.exactly ethType LLDP_ETH_TYPE) =
      (loadValue (lldpParser pi dpid out) ethType).map fun value =>
        decide ((MaskedBits.exactly LLDP_ETH_TYPE).Matches value) := rfl
  rw [passed, value]
  rfl

/-- A frame that begins with the record is taken for a frame of the ethertype. -/
theorem construct_lldp {p : LldpPacket} (own : p.ethType = LLDP_ETH_TYPE) {rest : List Byte}
    (data : pi.data = some (p.bytes ++ rest)) :
    ∃ pkt, PacketParser.construct pi dpid out = .ok pkt ∧
      passes pkt (.exactly ethType LLDP_ETH_TYPE) = .ok true := by
  have frame : pi.data.getD [] = p.bytes ++ rest := by rw [data, Option.getD_some]
  have size : 14 ≤ (pi.data.getD []).length := by
    rw [frame, List.length_append, LldpPacket.length_bytes]
    omega
  have first : (p.bytes ++ rest).getD 12 0 = p.ethType.extractLsb' 8 8 := rfl
  have second : (p.bytes ++ rest).getD 13 0 = p.ethType.extractLsb' 0 8 := rfl
  rw [own] at first second
  have word : (PacketParser.started pi dpid out).word 12 = LLDP_ETH_TYPE := by
    show (pi.data.getD []).getD 12 0 ++ (pi.data.getD []).getD 13 0 = LLDP_ETH_TYPE
    rw [frame, first, second]
    rfl
  refine ⟨lldpParser pi dpid out, construct_lldpParser (by rw [data]; rfl) size word, ?_⟩
  exact passes_lldpParser (frame ▸ first) (frame ▸ second)

end

theorem ordered_ends (a b : SwitchAndPort) :
    ((LinkDiscovery.ordered a b).1 = a ∧ (LinkDiscovery.ordered a b).2 = b) ∨
      ((LinkDiscovery.ordered a b).1 = b ∧ (LinkDiscovery.ordered a b).2 = a) := by
  rw [LinkDiscovery.ordered]
  split_ifs
  · exact .inr ⟨rfl, rfl⟩
  · exact .inl ⟨rfl, rfl⟩

theorem ordered_ascending (a b : SwitchAndPort) :
    (LinkDiscovery.ordered a b).2.lt (LinkDiscovery.ordered a b).1 = false := by
  rw [LinkDiscovery.ordered]
  split_ifs with less
  · exact SwitchAndPort.lt_asymm less
  · simpa using less

/-- **For a frame of the ethertype a beacon is queued if and only if it has the layout, exactly if it has
the layout. A frame of `sendLLDP` is taken for one, whatever follows it, and its sender and the place
where it is received are queued in ascending order.** -/
theorem beacon_layout_iff (pi : PacketIn) (dpid : BitVec 64) (out : BitVec 32) (pkt : PacketParser)
    (uninitialized : LldpValues) (mac : Fin 6 → Byte) (sender : BitVec 64) (portNo : BitVec 32)
    (pollInterval : BitVec 16) (rest : List Byte) :
    (PacketParser.construct pi dpid out = .ok pkt →
      passes pkt (.exactly ethType LLDP_ETH_TYPE) = .ok true →
        (((∃ queued, beaconHandler uninitialized pkt = .ok queued) ↔
            CarriesLayout (pi.data.getD [])) ↔
          CarriesLayout (pi.data.getD []))) ∧
    ∀ sent ∈ sendLLDP mac sender portNo pollInterval,
      ∃ pkt from_ to_,
        PacketParser.construct ⟨some (sent.data ++ rest), pi.inPort⟩ dpid out = .ok pkt ∧
          passes pkt (.exactly ethType LLDP_ETH_TYPE) = .ok true ∧
          beaconHandler uninitialized pkt = .ok ((from_, to_), .flowSettings ⟨0, 0⟩) ∧
          ((from_ = ⟨sender, portNo⟩ ∧ to_ = ⟨dpid, pi.inPort⟩) ∨
            (from_ = ⟨dpid, pi.inPort⟩ ∧ to_ = ⟨sender, portNo⟩)) ∧
          to_.lt from_ = false := by
  refine ⟨fun made passed => ?_, ?_⟩
  · have queued : ∃ queued, beaconHandler uninitialized pkt = .ok queued :=
      ⟨_, beaconHandler_eq made uninitialized⟩
    simp [queued]
  · intro sent mem
    obtain rfl := List.eq_of_mem_replicate mem
    have received : ∃ pkt, PacketParser.construct
        ⟨some ((lldpOf mac sender portNo pollInterval).bytes ++ rest), pi.inPort⟩ dpid out = .ok pkt ∧
          passes pkt (.exactly ethType LLDP_ETH_TYPE) = .ok true :=
      construct_lldp (p := lldpOf mac sender portNo pollInterval) rfl rfl
    obtain ⟨pkt, made, passed⟩ := received
    have handled := beaconHandler_eq made uninitialized
    have size : 50 ≤ ((lldpOf mac sender portNo pollInterval).bytes ++ rest).length := by simp
    have whole : ((lldpOf mac sender portNo pollInterval).bytes ++ rest).take 50 =
        (lldpOf mac sender portNo pollInterval).bytes := by
      rw [List.take_append_of_le_length (by simp), List.take_of_length_le (by simp)]
    simp only [Option.getD_some, whole, LldpPacket.ofBytes_bytes] at handled
    refine ⟨pkt, _, _, made, passed, handled, ?_, ordered_ascending ⟨sender, portNo⟩ ⟨dpid, pi.inPort⟩⟩
    exact ordered_ends ⟨sender, portNo⟩ ⟨dpid, pi.inPort⟩

/-- The frame of switch 1 and its port 2, received at port 3 of switch 4. -/
theorem beacon_layout_sent :
    let sent := (lldpOf (fun _ => 0) 1 2 5).bytes
    let nothing : LldpValues := ⟨0, 0, 0, 0, 0⟩
    ∃ pkt queued, PacketParser.construct ⟨some (sent ++ []), 3⟩ 4 0 = .ok pkt ∧
      beaconHandler nothing pkt = .ok queued ∧ CarriesLayout sent := by
  intro sent nothing
  let pi : PacketIn := ⟨some (sent ++ []), 3⟩
  obtain ⟨pkt, -, -, made, passed, -, -, -⟩ :=
    (beacon_layout_iff pi 4 0 (PacketParser.started pi 4 0) nothing (fun _ => 0) 1 2 5 []).2
      ⟨2, sent⟩ (by simp [sendLLDP, sent])
  have carries : CarriesLayout ((PacketIn.mk (some (sent ++ [])) 3).data.getD []) :=
    ⟨⟨0, 1, 2, 5, 1⟩, List.prefix_append _ _⟩
  have layout := (beacon_layout_iff pi 4 0 pkt nothing (fun _ => 0) 1 2 5 []).1 made passed
  obtain ⟨queued, handled⟩ := (layout.mpr carries).mpr carries
  exact ⟨pkt, queued, made, handled, ⟨⟨0, 1, 2, 5, 1⟩, List.prefix_refl _⟩⟩

/-- A frame with nothing behind its ethertype. -/
theorem beacon_of_header :
    let frame : List Byte := List.replicate 12 0 ++ [0x88, 0xcc]
    ∃ pkt queued, PacketParser.construct ⟨some frame, 1⟩ 1 0 = .ok pkt ∧
      passes pkt (.exactly ethType LLDP_ETH_TYPE) = .ok true ∧
        beaconHandler ⟨0, 0, 0, 0, 0⟩ pkt = .ok queued ∧ ¬CarriesLayout frame := by
  intro frame
  have made : PacketParser.construct ⟨some frame, 1⟩ 1 0 = .ok (lldpParser ⟨some frame, 1⟩ 1 0) :=
    construct_lldpParser rfl (by decide) (by decide)
  refine ⟨_, _, made, passes_lldpParser rfl rfl, beaconHandler_eq made _, ?_⟩
  rintro ⟨values, within⟩
  have long := within.length_le
  rw [LldpPacket.length_bytes] at long
  exact absurd long (by decide)

end Drunos.Topology
