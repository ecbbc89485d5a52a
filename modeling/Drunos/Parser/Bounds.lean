/-
# Drunos.Parser.Bounds — which bytes a parsed packet touches

Every header is looked at after a check that it is there, with one exception: for a
truncated IPv6 header the parser asks the null pointer for a length. In all other
cases the constructor finishes, and what it binds lies in the captured data or in the
parser's own members (`construct_sound`).

A load reads one byte more than that, the one before the first (`read_before`). Of
`in_port`, which is always bound, this is the last byte of the length of the data, so
that no packet is safe to read.
-/
import Drunos.Parser.PacketParser

namespace Drunos.Parser

open Drunos.Oxm OpenflowBasic Bits

set_option autoImplicit false

/-! ## The bytes of a place -/

/-- A byte of the captured data, or of the members `in_port`, `out_port`, `switch_id`. -/
def Inside (dataLen : Nat) : Address → Prop
  | .frame i => 0 ≤ i ∧ i < dataLen
  | .members i => 0 ≤ i ∧ i < 16

/-- There is room for the value of a type at a place. -/
def Fits (dataLen : Nat) (t : OxmType) : Address → Prop
  | .frame i => 0 ≤ i ∧ i + numBlocks (nbits t) ≤ dataLen
  | .members i => 0 ≤ i ∧ i + numBlocks (nbits t) ≤ 16

theorem Fits.frame {dataLen : Nat} {t : OxmType} {i : Int} (bytes : Nat)
    (size : numBlocks (nbits t) = bytes) (start : 0 ≤ i) (room : i + bytes ≤ dataLen) :
    Fits dataLen t (.frame i) := ⟨start, by omega⟩

theorem Fits.members {dataLen : Nat} {t : OxmType} {i : Int} (bytes : Nat)
    (size : numBlocks (nbits t) = bytes) (start : 0 ≤ i) (room : i + bytes ≤ 16) :
    Fits dataLen t (.members i) := ⟨start, by omega⟩

theorem Fits.writes {dataLen : Nat} {t : OxmType} {place : Address} (fits : Fits dataLen t place) :
    ∀ b ∈ writeRange (nbits t) place, Inside dataLen b := by
  intro b mem
  obtain ⟨k, range, rfl⟩ := List.mem_map.mp mem
  have less : k < numBlocks (nbits t) := List.mem_range.mp range
  cases place with
  | frame i =>
    obtain ⟨start, room⟩ := fits
    show 0 ≤ _ ∧ _ < _
    omega
  | members i =>
    obtain ⟨start, room⟩ := fits
    show 0 ≤ _ ∧ _ < _
    omega

/-- A load reads what a modification writes, and the byte before. -/
theorem mem_readRange {n : Nat} {place b : Address} :
    b ∈ readRange n place ↔ b ∈ writeRange n place ∨ b = place.shift (-1) := by
  have last : ((numBlocks n : Int) - 1 - numBlocks n) = -1 := by omega
  simp only [readRange, writeRange, List.range_succ, List.map_append, List.mem_append, List.map_cons,
    List.map_nil, List.mem_singleton, last]

theorem read_before (n : Nat) (place : Address) : place.shift (-1) ∈ readRange n place :=
  mem_readRange.mpr (.inr rfl)

/-! ## Binding -/

theorem bindAll_ok (ns : BitVec 16) : ∀ {new : List (OxmType × Address)} {bindings : Bindings},
    (∀ e ∈ new, bindings[e.1.id.toNat]? = some none) → (new.map (·.1.id)).Nodup →
    ∃ after, bindAll ns bindings new = .ok after ∧
      (∀ i, (∀ e ∈ new, e.1.id.toNat ≠ i) → after[i]? = bindings[i]?) ∧
      ∀ e ∈ new, after[e.1.id.toNat]? = some (some e.2)
  | [], bindings, _, _ => ⟨bindings, rfl, fun _ _ => rfl, by simp⟩
  | (t, place) :: rest, bindings, fresh, distinct => by
    have here : bindings[t.id.toNat]? = some none := fresh (t, place) (by simp)
    have short : t.id.toNat < bindings.length := (List.getElem?_eq_some_iff.mp here).1
    obtain ⟨new, distinct⟩ := List.nodup_cons.mp distinct
    have apart : ∀ e ∈ rest, t.id.toNat ≠ e.1.id.toNat := by
      intro e mem same
      exact new (List.mem_map.mpr ⟨e, mem, (BitVec.eq_of_toNat_eq same).symm⟩)
    have still : ∀ e ∈ rest, (bindings.set t.id.toNat (some place))[e.1.id.toNat]? = some none := by
      intro e mem
      rw [List.getElem?_set_ne (apart e mem)]
      exact fresh e (by simp [mem])
    obtain ⟨after, eq, others, these⟩ := bindAll_ok ns still distinct
    refine ⟨after, ?_, ?_, ?_⟩
    · simp only [bindAll, bindAt, here]
      exact eq
    · intro i ne
      rw [others i fun e mem => ne e (by simp [mem]), List.getElem?_set_ne (ne (t, place) (by simp))]
    · intro e mem
      rcases List.mem_cons.mp mem with rfl | mem
      · rw [others _ fun e mem same => apart e mem same.symm, List.getElem?_set_self short]
      · exact these e mem

namespace PacketParser

variable {p q r : PacketParser} {t : OxmType} {place : Address}

/-- Nothing that is bound moves. -/
structure Extends (p q : PacketParser) : Prop where
  memory : q.memory = p.memory
  dataLen : q.dataLen = p.dataLen
  keeps : ∀ t place, p.access t = .ok place → q.access t = .ok place

theorem Extends.refl (p : PacketParser) : p.Extends p := ⟨rfl, rfl, fun _ _ bound => bound⟩

theorem Extends.trans (first : p.Extends q) (second : q.Extends r) : p.Extends r where
  memory := second.memory.trans first.memory
  dataLen := second.dataLen.trans first.dataLen
  keeps := fun t place bound => second.keeps t place (first.keeps t place bound)

/-- Everything that is bound has room. -/
def Sound (p : PacketParser) : Prop := ∀ t place, p.access t = .ok place → Fits p.dataLen t place

def Unbound (p : PacketParser) (types : List OxmType) : Prop :=
  ∀ t ∈ types, p.ofbBindings[t.id.toNat]? = some none

theorem access_basic (basic : t.ns = OPENFLOW_BASIC) :
    p.access t = .ok place ↔ p.ofbBindings[t.id.toNat]? = some (some place) := by
  rw [access, if_pos basic]
  split
  · next eq => simp [eq]
  · next none => simpa using none place

theorem access_nonof (other : t.ns = NON_OPENFLOW) :
    p.access t = .ok place ↔ p.nonofBindings[t.id.toNat]? = some (some place) := by
  rw [access, if_neg (by simp [other]), if_pos other]
  split
  · next eq => simp [eq]
  · next none => simpa using none place

theorem access_ns (bound : p.access t = .ok place) :
    t.ns = OPENFLOW_BASIC ∨ t.ns = NON_OPENFLOW := by
  by_contra neither
  obtain ⟨basic, other⟩ := not_or.mp neither
  rw [access, if_neg basic, if_neg other] at bound
  cases bound

/-- What a call of `bind` needs, and what it does. -/
theorem bindOfb_ok (new : List (OxmType × Address)) (types later : List OxmType)
    (of : new.map Prod.fst = types) (basic : ∀ t ∈ types, t.ns = OPENFLOW_BASIC)
    (distinct : (types.map (·.id)).Nodup) (apart : ∀ t ∈ types, ∀ u ∈ later, t.id ≠ u.id)
    (fresh : p.Unbound types) (unbound : p.Unbound later)
    (fit : ∀ e ∈ new, Fits p.dataLen e.1 e.2) (sound : p.Sound) :
    ∃ q, p.bindOfb new = .ok q ∧ p.Extends q ∧ q.Sound ∧ q.Unbound later ∧ q.ipv6 = p.ipv6 := by
  subst of
  have fresh : ∀ e ∈ new, p.ofbBindings[e.1.id.toNat]? = some none := fun e mem =>
    fresh e.1 (List.mem_map_of_mem mem)
  obtain ⟨after, eq, others, these⟩ := bindAll_ok OPENFLOW_BASIC fresh
    (by simpa only [List.map_map, Function.comp_def] using distinct)
  refine ⟨{ p with ofbBindings := after }, by rw [bindOfb, eq]; rfl, ⟨rfl, rfl, ?_⟩, ?_, ?_, rfl⟩
  · intro t place bound
    rcases access_ns bound with ns | ns
    · have here := (access_basic ns).mp bound
      refine (access_basic ns).mpr ((others _ ?_).trans here)
      intro e mem same
      rw [← same, fresh e mem] at here
      cases here
    · have here : p.nonofBindings[t.id.toNat]? = some (some place) := (access_nonof ns).mp bound
      exact (access_nonof ns).mpr here
  · intro t place bound
    rcases access_ns bound with ns | ns
    · have here : after[t.id.toNat]? = some (some place) := (access_basic ns).mp bound
      by_cases isNew : ∃ e ∈ new, e.1.id.toNat = t.id.toNat
      · obtain ⟨⟨t', place'⟩, mem, same⟩ := isNew
        obtain rfl : t' = t := by
          cases t; cases t'
          simp only [OxmType.mk.injEq]
          exact ⟨(basic _ (List.mem_map_of_mem mem)).trans ns.symm, BitVec.eq_of_toNat_eq same⟩
        rw [these _ mem] at here
        obtain rfl : place' = place := by simpa using here
        exact fit _ mem
      · rw [others _ fun e mem same => isNew ⟨e, mem, same⟩] at here
        exact sound t place ((access_basic ns).mpr here)
    · have here := (access_nonof ns).mp bound
      exact sound t place ((access_nonof ns).mpr here)
  · intro t mem
    refine (others _ ?_).trans (unbound t mem)
    intro e isNew same
    exact apart e.1 (List.mem_map_of_mem isNew) t mem (BitVec.eq_of_toNat_eq same)

/-! ## The layers -/

def l4Types : List OxmType := [tcpSrc, tcpDst, udpSrc, udpDst, icmpType, icmpCode]

def l3Types : List OxmType :=
  [ipProto, ipv4Src, ipv4Dst, arpOp, arpSha, arpTha, arpSpa, arpTpa, ipv6Src, ipv6Dst] ++ l4Types

/-- A layer that is parsed: nothing moves, and what is new has room. -/
def Parsed (p : PacketParser) (result : Except ParserError PacketParser) : Prop :=
  ∃ q, result = .ok q ∧ p.Extends q ∧ q.Sound

theorem Parsed.same (sound : p.Sound) : p.Parsed (.ok p) := ⟨p, rfl, .refl p, sound⟩

theorem Parsed.after {result : Except ParserError PacketParser} (first : p.Extends q)
    (second : q.Parsed result) : p.Parsed result := by
  obtain ⟨r, eq, ext, sound⟩ := second
  exact ⟨r, eq, first.trans ext, sound⟩

theorem parseL4_ok {protocol : Byte} {data dataLen : Nat} (sound : p.Sound)
    (unbound : p.Unbound l4Types) (room : data + dataLen ≤ p.dataLen) :
    p.Parsed (p.parseL4 protocol data dataLen) := by
  have bound {new : List (OxmType × Address)} (types : List OxmType)
      (of : new.map Prod.fst = types) (basic : ∀ t ∈ types, t.ns = OPENFLOW_BASIC) (distinct : (types.map (·.id)).Nodup)
      (l4 : ∀ t ∈ types, t ∈ l4Types) (fit : ∀ e ∈ new, Fits p.dataLen e.1 e.2) :
      p.Parsed (p.bindOfb new) := by
    obtain ⟨q, eq, ext, sound, -, -⟩ := bindOfb_ok new types [] of basic distinct (by simp)
      (fun t mem => unbound t (l4 t mem)) (by simp [Unbound]) fit sound
    exact ⟨q, eq, ext, sound⟩
  unfold parseL4
  split_ifs with tcp len udp len icmp len
  · refine bound [tcpSrc, tcpDst] rfl (by decide) (by decide) (by decide) ?_
    simp only [List.forall_mem_cons]
    exact ⟨.frame 2 rfl (by omega) (by omega), .frame 2 rfl (by omega) (by omega), by simp⟩
  · exact .same sound
  · refine bound [udpSrc, udpDst] rfl (by decide) (by decide) (by decide) ?_
    simp only [List.forall_mem_cons]
    exact ⟨.frame 2 rfl (by omega) (by omega), .frame 2 rfl (by omega) (by omega), by simp⟩
  · exact .same sound
  · refine bound [icmpType, icmpCode] rfl (by decide) (by decide) (by decide) ?_
    simp only [List.forall_mem_cons]
    exact ⟨.frame 1 rfl (by omega) (by omega), .frame 1 rfl (by omega) (by omega), by simp⟩
  · exact .same sound
  · exact .same sound

theorem parseIpv4_ok {data dataLen : Nat} (sound : p.Sound) (unbound : p.Unbound l3Types)
    (room : data + dataLen ≤ p.dataLen) : p.Parsed (p.parseIpv4 data dataLen) := by
  unfold parseIpv4
  split_ifs with len
  · obtain ⟨q, eq, ext, soundQ, unboundQ, -⟩ :=
      bindOfb_ok (p := p) [(ipProto, .frame (data + 9)), (ipv4Src, .frame (data + 12)),
        (ipv4Dst, .frame (data + 16))] [ipProto, ipv4Src, ipv4Dst] l4Types rfl (by decide)
        (by decide) (by decide) (fun t mem => unbound t (by revert t; decide))
        (fun t mem => unbound t (List.mem_append_right _ mem))
        (by
          simp only [List.forall_mem_cons]
          exact ⟨.frame 1 rfl (by omega) (by omega), .frame 4 rfl (by omega) (by omega),
            .frame 4 rfl (by omega) (by omega), by simp⟩) sound
    have roomQ : data + dataLen ≤ q.dataLen := by
      rw [ext.dataLen]
      exact room
    rw [eq]
    show p.Parsed (if q.ipv4HeaderLength data < dataLen then _ else pure q)
    split_ifs with rest
    · exact .after ext (parseL4_ok soundQ unboundQ (by omega))
    · exact .after ext (.same soundQ)
  · exact .same sound

theorem parseArp_ok {data dataLen : Nat} (sound : p.Sound) (unbound : p.Unbound l3Types)
    (room : data + dataLen ≤ p.dataLen) : p.Parsed (p.parseArp data dataLen) := by
  unfold parseArp
  split_ifs with len other
  · exact .same sound
  · obtain ⟨q, eq, ext, soundQ, -, -⟩ :=
      bindOfb_ok (p := p) [(arpOp, .frame (data + 6)), (arpSha, .frame (data + 8)),
        (arpTha, .frame (data + 18)), (arpSpa, .frame (data + 14)), (arpTpa, .frame (data + 24))]
        [arpOp, arpSha, arpTha, arpSpa, arpTpa] [] rfl (by decide) (by decide) (by simp)
        (fun t mem => unbound t (by revert t; decide)) (by simp [Unbound])
        (by
          simp only [List.forall_mem_cons]
          exact ⟨.frame 2 rfl (by omega) (by omega), .frame 6 rfl (by omega) (by omega),
            .frame 6 rfl (by omega) (by omega), .frame 4 rfl (by omega) (by omega),
            .frame 4 rfl (by omega) (by omega), by simp⟩) sound
    exact ⟨q, eq, ext, soundQ⟩
  · exact .same sound

theorem parseIpv6_ok {data dataLen : Nat} (sound : p.Sound) (unbound : p.Unbound l3Types)
    (room : data + dataLen ≤ p.dataLen) (len : 40 ≤ dataLen) :
    p.Parsed (p.parseIpv6 data dataLen) := by
  obtain ⟨q, eq, ext, soundQ, unboundQ, header⟩ :=
    bindOfb_ok (p := { p with ipv6 := some data })
      [(ipv6Src, .frame (data + 8)), (ipv6Dst, .frame (data + 24)),
        (ipProto, .frame (data + 6))]
      [ipv6Src, ipv6Dst, ipProto] l4Types rfl (by decide) (by decide) (by decide)
      (fun t mem => unbound t (by revert t; decide))
      (fun t mem => unbound t (List.mem_append_right _ mem))
      (by
        simp only [List.forall_mem_cons]
        exact ⟨.frame 16 rfl (by omega) (by show _ ≤ (p.dataLen : Int); omega),
          .frame 16 rfl (by omega) (by show _ ≤ (p.dataLen : Int); omega),
          .frame 1 rfl (by omega) (by show _ ≤ (p.dataLen : Int); omega), by simp⟩) sound
  have extP : p.Extends q := ⟨ext.memory, ext.dataLen, ext.keeps⟩
  have roomQ : data + dataLen ≤ q.dataLen := by
    rw [extP.dataLen]
    exact room
  have header : q.ipv6 = some data := header
  unfold parseIpv6
  rw [if_pos len, eq]
  simp only [bind, Except.bind, header]
  split_ifs with rest
  · exact .after extP (parseL4_ok soundQ unboundQ (by omega))
  · exact .after extP (.same soundQ)

/-- A header that is not there is asked for its length. -/
theorem parseIpv6_short {data dataLen : Nat} (short : dataLen < 40) (null : p.ipv6 = none) :
    p.parseIpv6 data dataLen = .error .nullptrDereference := by
  unfold parseIpv6
  rw [if_neg (by omega)]
  simp only [bind, Except.bind, null]

theorem parseL3_ok {ethType : BitVec 16} {data dataLen : Nat} (sound : p.Sound)
    (unbound : p.Unbound l3Types) (room : data + dataLen ≤ p.dataLen)
    (full : ethType = 0x86dd → 40 ≤ dataLen) : p.Parsed (p.parseL3 ethType data dataLen) := by
  unfold parseL3
  split_ifs with ipv4 arp ipv6
  · exact parseIpv4_ok sound unbound room
  · exact parseArp_ok sound unbound room
  · exact parseIpv6_ok sound unbound room (full ipv6)
  · exact .same sound

theorem parseL3_short {data dataLen : Nat} (short : dataLen < 40) (null : p.ipv6 = none) :
    p.parseL3 0x86dd data dataLen = .error .nullptrDereference := by
  rw [parseL3, if_neg (by decide), if_neg (by decide), if_pos rfl]
  exact parseIpv6_short short null

def l2Types : List OxmType := [ethType, ethSrc, ethDst, vlanVid]

/-- The frame, tagged or not, carries less of IPv6 than its header. -/
def ShortIpv6 (p : PacketParser) (dataLen : Nat) : Prop :=
  (p.word 12 = 0x86dd ∧ 14 ≤ dataLen ∧ dataLen < 14 + 40) ∨
    (p.word 12 = 0x8100 ∧ p.word 16 = 0x86dd ∧ 18 ≤ dataLen ∧ dataLen < 18 + 40)

theorem bindTagged_ok (sound : p.Sound) (unbound : p.Unbound (l2Types ++ l3Types))
    (len : 18 ≤ p.dataLen) :
    ∃ q, p.bindOfb [(ethType, .frame 16), (ethSrc, .frame 6), (ethDst, .frame 0),
        (vlanVid, .frame 14)] = .ok q ∧
      p.Extends q ∧ q.Sound ∧ q.Unbound l3Types ∧ q.ipv6 = p.ipv6 :=
  bindOfb_ok _ [ethType, ethSrc, ethDst, vlanVid] l3Types rfl (by decide) (by decide) (by decide)
    (fun t mem => unbound t (List.mem_append_left _ mem))
    (fun t mem => unbound t (List.mem_append_right _ mem))
    (by
      simp only [List.forall_mem_cons]
      exact ⟨.frame 2 rfl (by omega) (by omega), .frame 6 rfl (by omega) (by omega),
        .frame 6 rfl (by omega) (by omega), .frame 2 rfl (by omega) (by omega), by simp⟩) sound

theorem bindUntagged_ok (sound : p.Sound) (unbound : p.Unbound (l2Types ++ l3Types))
    (len : 14 ≤ p.dataLen) :
    ∃ q, p.bindOfb [(ethType, .frame 12), (ethSrc, .frame 6), (ethDst, .frame 0)] = .ok q ∧
      p.Extends q ∧ q.Sound ∧ q.Unbound l3Types ∧ q.ipv6 = p.ipv6 :=
  bindOfb_ok _ [ethType, ethSrc, ethDst] l3Types rfl (by decide) (by decide) (by decide)
    (fun t mem => unbound t (by revert t; decide))
    (fun t mem => unbound t (List.mem_append_right _ mem))
    (by
      simp only [List.forall_mem_cons]
      exact ⟨.frame 2 rfl (by omega) (by omega), .frame 6 rfl (by omega) (by omega),
        .frame 6 rfl (by omega) (by omega), by simp⟩) sound

theorem Extends.word (ext : p.Extends q) (i : Nat) : q.word i = p.word i := by
  simp only [PacketParser.word, byte, ext.memory]

theorem parseL2_ok (sound : p.Sound) (unbound : p.Unbound (l2Types ++ l3Types))
    (full : ¬p.ShortIpv6 p.dataLen) : p.Parsed (p.parseL2 p.dataLen) := by
  unfold parseL2
  split_ifs with len tagged room
  · obtain ⟨q, eq, ext, soundQ, unboundQ, -⟩ := bindTagged_ok sound unbound room
    rw [eq]
    refine .after ext (parseL3_ok soundQ unboundQ (by rw [ext.dataLen]; omega) fun ipv6 => ?_)
    by_contra short
    exact full (.inr ⟨tagged, ext.word 16 ▸ ipv6, room, by omega⟩)
  · exact parseL3_ok sound (fun t mem => unbound t (List.mem_append_right _ mem)) (by omega)
      fun ipv6 => by simp at ipv6
  · obtain ⟨q, eq, ext, soundQ, unboundQ, -⟩ := bindUntagged_ok sound unbound len
    rw [eq]
    refine .after ext (parseL3_ok soundQ unboundQ (by rw [ext.dataLen]; omega) fun ipv6 => ?_)
    by_contra short
    exact full (.inl ⟨ext.word 12 ▸ ipv6, len, by omega⟩)
  · exact .same sound

theorem parseL2_short (sound : p.Sound) (unbound : p.Unbound (l2Types ++ l3Types))
    (null : p.ipv6 = none) (short : p.ShortIpv6 p.dataLen) :
    p.parseL2 p.dataLen = .error .nullptrDereference := by
  unfold parseL2
  rcases short with ⟨ipv6, len, short⟩ | ⟨tagged, ipv6, len, short⟩
  · obtain ⟨q, eq, ext, -, -, header⟩ := bindUntagged_ok sound unbound len
    rw [if_pos len, if_neg (by rw [ipv6]; decide), eq]
    show q.parseL3 (q.word 12) 14 _ = _
    rw [ext.word, ipv6]
    exact parseL3_short (by omega) (header.trans null)
  · obtain ⟨q, eq, ext, -, -, header⟩ := bindTagged_ok sound unbound len
    rw [if_pos (by omega), if_pos tagged, if_pos len, eq]
    show q.parseL3 (q.word 16) 18 _ = _
    rw [ext.word, ipv6]
    exact parseL3_short (by omega) (header.trans null)

/-! ## The constructor -/

/-- The parser with the bindings every packet has. -/
def started (pi : PacketIn) (dpid : BitVec 64) (out : BitVec 32) : PacketParser :=
  { init pi dpid out with
    ofbBindings := (init pi dpid out).ofbBindings.set 0 (some (.members 0))
    nonofBindings := ((init pi dpid out).nonofBindings.set 1 (some (.members 8))).set 2
      (some (.members 4)) }

variable {pi : PacketIn} {dpid : BitVec 64} {out : BitVec 32}

theorem construct_eq : construct pi dpid out =
    if pi.data.isSome then (started pi dpid out).parseL2 (started pi dpid out).dataLen
    else .ok (started pi dpid out) := by
  obtain ⟨_ | data, port⟩ := pi
  · rfl
  · rfl

theorem started_inPort : (started pi dpid out).access inPort = .ok (.members 0) := rfl

theorem started_unbound : (started pi dpid out).Unbound (l2Types ++ l3Types) := by
  show ∀ t ∈ l2Types ++ l3Types,
    ((List.replicate 40 none).set 0 (some (Address.members 0)))[t.id.toNat]? = some none
  decide

/-- A place in an array that is null elsewhere. -/
theorem set_bound {bindings : Bindings} {n i : Nat} {here place : Address}
    (bound : (bindings.set n (some here))[i]? = some (some place)) :
    (n = i ∧ here = place) ∨ bindings[i]? = some (some place) := by
  by_cases same : n = i
  · subst same
    rw [List.getElem?_set_self (by simpa using (List.getElem?_eq_some_iff.mp bound).1)] at bound
    exact .inl ⟨rfl, by simpa using bound⟩
  · rw [List.getElem?_set_ne same] at bound
    exact .inr bound

theorem replicate_unbound {n i : Nat} {place : Address} :
    (List.replicate n (none : Option Address))[i]? ≠ some (some place) := by
  intro bound
  rw [List.getElem?_replicate] at bound
  split at bound <;> cases bound

theorem started_sound : (started pi dpid out).Sound := by
  rintro ⟨ns, id⟩ place bound
  rcases access_ns bound with rfl | rfl
  · rcases set_bound ((access_basic rfl).mp bound) with ⟨same, rfl⟩ | bound
    · obtain rfl : id = 0#7 := BitVec.eq_of_toNat_eq same.symm
      exact .members 4 rfl (by decide) (by decide)
    · exact absurd bound replicate_unbound
  · rcases set_bound ((access_nonof rfl).mp bound) with ⟨same, rfl⟩ | bound
    · obtain rfl : id = 2#7 := BitVec.eq_of_toNat_eq same.symm
      exact .members 4 rfl (by decide) (by decide)
    rcases set_bound bound with ⟨same, rfl⟩ | bound
    · obtain rfl : id = 1#7 := BitVec.eq_of_toNat_eq same.symm
      exact .members 8 rfl (by decide) (by decide)
    · exact absurd bound replicate_unbound

/-- The message carries a frame that ends within the header of IPv6. -/
def TruncatedIpv6 (pi : PacketIn) : Prop :=
  pi.data.isSome ∧ (started pi 0 0).ShortIpv6 (started pi 0 0).dataLen

/-- Whatever the bytes are, the constructor finishes, and what it has bound has room; but for a
truncated header of IPv6. -/
theorem construct_sound (full : ¬TruncatedIpv6 pi) :
    (started pi dpid out).Parsed (construct pi dpid out) := by
  rw [construct_eq]
  split_ifs with data
  · exact parseL2_ok started_sound started_unbound fun short => full ⟨data, short⟩
  · exact .same started_sound

theorem construct_truncated (short : TruncatedIpv6 pi) :
    construct pi dpid out = .error .nullptrDereference := by
  rw [construct_eq, if_pos short.1]
  exact parseL2_short started_sound started_unbound rfl short.2

theorem construct_ok_iff : (∃ p, construct pi dpid out = .ok p) ↔ ¬TruncatedIpv6 pi := by
  constructor
  · rintro ⟨p, eq⟩ short
    rw [construct_truncated short] at eq
    cases eq
  · intro full
    obtain ⟨p, eq, -⟩ := construct_sound full
    exact ⟨p, eq⟩

theorem construct_made (made : construct pi dpid out = .ok p) :
    (started pi dpid out).Extends p ∧ p.Sound := by
  have parsed : (started pi dpid out).Parsed (construct pi dpid out) :=
    construct_sound (construct_ok_iff.mp ⟨p, made⟩)
  obtain ⟨q, eq, ext, sound⟩ := parsed
  obtain rfl : p = q := by simpa [made] using eq
  exact ⟨ext, sound⟩

/-- All that is written is inside, and all that is read but for the byte before a value. -/
theorem construct_touches (made : construct pi dpid out = .ok p)
    (bound : p.access t = .ok place) :
    (∀ b ∈ writeRange (nbits t) place, Inside p.dataLen b) ∧
      ∀ b ∈ readRange (nbits t) place, Inside p.dataLen b ∨ b = place.shift (-1) := by
  have writes := ((construct_made made).2 t place bound).writes
  exact ⟨writes, fun b read => (mem_readRange.mp read).imp_left (writes b)⟩

/-! ## Safety -/

/-- The constructor finishes, and all that a load of a bound type reads or a modification of it
writes is a byte of the captured data or of the parser's own values. -/
def Safe (pi : PacketIn) (dpid : BitVec 64) (out : BitVec 32) : Prop :=
  ∃ p, construct pi dpid out = .ok p ∧ ∀ t place, p.access t = .ok place →
    (∀ b ∈ readRange (nbits t) place, Inside p.dataLen b) ∧
      ∀ b ∈ writeRange (nbits t) place, Inside p.dataLen b

/-- No packet is safe: the port is always bound, and the byte before it is read with it. -/
theorem construct_unsafe (pi : PacketIn) (dpid : BitVec 64) (out : BitVec 32) :
    ¬Safe pi dpid out := by
  rintro ⟨p, made, safe⟩
  have bound : p.access inPort = .ok (.members 0) :=
    (construct_made made).1.keeps _ _ started_inPort
  have inside : Inside p.dataLen (.members (-1)) :=
    (safe inPort _ bound).1 _ (read_before (nbits inPort) (.members 0))
  exact absurd inside.1 (by decide)

/-- For the destination of an Ethernet frame, the byte before the captured data is read. -/
theorem ethDst_unsafe : ¬Safe ⟨some (List.replicate 14 0), 1⟩ 1 0 := by
  rintro ⟨p, made, safe⟩
  have bound : p.access ethDst = .ok (.frame 0) := by
    injection made with eq
    rw [← eq]
    rfl
  have inside : Inside p.dataLen (.frame (-1)) :=
    (safe ethDst _ bound).1 _ (read_before (nbits ethDst) (.frame 0))
  exact absurd inside.1 (by decide)

/-- And a frame of fourteen bytes that announces IPv6 is not parsed at all. -/
example : construct ⟨some (List.replicate 12 0 ++ [0x86, 0xdd]), 1⟩ 1 0 =
    .error .nullptrDereference := rfl

end PacketParser

end Drunos.Parser
