/-
# Drunos.Parser.Frame — the fields a frame carries

Which fields the parser binds depends on the type of the frame, its tag, the protocol
and the lengths of its headers. `carried` says it of the bytes of a packet-in message:
these types, and no others, have a place in the parser that was made of it
(`construct_carried`).
-/
import Drunos.Parser.PacketParser
import Drunos.Oxm.Handler

namespace Drunos.Parser

open Drunos.Oxm Drunos.Theory OpenflowBasic Bits

set_option autoImplicit false

/-! ## The types of the headers -/

def l4Carried (protocol : Byte) (dataLen : Nat) : List OxmType :=
  if protocol = 0x06 then if 20 ≤ dataLen then [tcpSrc, tcpDst] else []
  else if protocol = 0x11 then if 8 ≤ dataLen then [udpSrc, udpDst] else []
  else if protocol = 0x01 then if 4 ≤ dataLen then [icmpType, icmpCode] else []
  else []

section

-- the bytes of the frame
variable (byte : Nat → Byte)

def wordAt (i : Nat) : BitVec 16 := byte i ++ byte (i + 1)

def ipv4Carried (data dataLen : Nat) : List OxmType :=
  let header := ((byte data).extractLsb' 0 4).toNat * 4
  if 20 ≤ dataLen then
    [ipProto, ipv4Src, ipv4Dst] ++
      if header < dataLen then l4Carried (byte (data + 9)) (dataLen - header) else []
  else []

def arpCarried (data dataLen : Nat) : List OxmType :=
  if 28 ≤ dataLen then
    if wordAt byte data ≠ 1 ∨ wordAt byte (data + 2) ≠ 0x0800 ∨ byte (data + 4) ≠ 6 ∨
        byte (data + 5) ≠ 4 then []
    else [arpOp, arpSha, arpTha, arpSpa, arpTpa]
  else []

def ipv6Carried (data dataLen : Nat) : List OxmType :=
  [ipv6Src, ipv6Dst, ipProto] ++
    if 40 < dataLen then l4Carried (byte (data + 6)) (dataLen - 40) else []

def l3Carried (ethType : BitVec 16) (data dataLen : Nat) : List OxmType :=
  if ethType = 0x0800 then ipv4Carried byte data dataLen
  else if ethType = 0x0806 then arpCarried byte data dataLen
  else if ethType = 0x86dd then ipv6Carried byte data dataLen
  else []

def l2Carried (dataLen : Nat) : List OxmType :=
  if 14 ≤ dataLen then
    if wordAt byte 12 = 0x8100 then
      if 18 ≤ dataLen then
        [ethType, ethSrc, ethDst, vlanVid] ++ l3Carried byte (wordAt byte 16) 18 (dataLen - 18)
      else []
    else [ethType, ethSrc, ethDst] ++ l3Carried byte (wordAt byte 12) 14 (dataLen - 14)
  else []

end

/-- The types of the fields that the packet of a message carries. -/
def carried (pi : PacketIn) : List OxmType :=
  [inPort, switchId, outPort] ++
    match pi.data with
    | none => []
    | some data => l2Carried (fun i => data.getD i 0) data.length

/-! ## What is bound -/

theorem bind_ok {α β : Type} {first : Except ParserError α} {next : α → Except ParserError β} {b : β}
    (result : first >>= next = .ok b) : ∃ a, first = .ok a ∧ next a = .ok b := by
  cases first with
  | error e => cases result
  | ok a => exact ⟨a, rfl, result⟩

theorem bindAll_bound (ns : BitVec 16) : ∀ {new : List (OxmType × Address)} {bindings after : Bindings},
    bindAll ns bindings new = .ok after → ∀ i, (∃ place, after[i]? = some (some place)) ↔
      (∃ place, bindings[i]? = some (some place)) ∨ ∃ e ∈ new, e.1.id.toNat = i
  | [], bindings, after, result, i => by
      obtain rfl : bindings = after := by injection result
      simp
  | (t, place) :: rest, bindings, after, result, i => by
      obtain ⟨middle, first, later⟩ := bind_ok result
      have free : bindings[t.id.toNat]? = some none ∧ middle = bindings.set t.id.toNat (some place) := by
        unfold bindAt at first
        split at first
        · cases first
        · cases first
        · next free => injection first with first; exact ⟨free, first.symm⟩
      obtain ⟨free, rfl⟩ := free
      have short : t.id.toNat < bindings.length := (List.getElem?_eq_some_iff.mp free).1
      rw [bindAll_bound ns later i, List.exists_mem_cons_iff, ← or_assoc]
      refine or_congr_left ?_
      by_cases here : t.id.toNat = i
      · subst here
        simp [List.getElem?_set_self short]
      · simp [List.getElem?_set_ne here, here]

namespace PacketParser

variable {p q r : PacketParser} {t : OxmType} {types : List OxmType}

/-- There is a place for the type. -/
def Binds (p : PacketParser) (t : OxmType) : Prop := ∃ place, p.access t = .ok place

theorem binds_iff : p.Binds t ↔
    (t.ns = OPENFLOW_BASIC ∧ ∃ place, p.ofbBindings[t.id.toNat]? = some (some place)) ∨
      (t.ns = NON_OPENFLOW ∧ ∃ place, p.nonofBindings[t.id.toNat]? = some (some place)) := by
  have apart : OPENFLOW_BASIC ≠ NON_OPENFLOW := by decide
  unfold Binds access
  split_ifs with basic other
  · have not : t.ns ≠ NON_OPENFLOW := basic ▸ apart
    simp only [basic, true_and, apart, false_and, or_false]
    split
    · next here => simp [here]
    · next none => simpa using none
  · have not : t.ns ≠ OPENFLOW_BASIC := basic
    simp only [other, true_and, apart.symm, false_and, false_or]
    split
    · next here => simp [here]
    · next none => simpa using none
  · refine iff_of_false ?_ ?_
    · rintro ⟨place, thrown⟩
      cases thrown
    · exact not_or.mpr ⟨fun both => basic both.1, fun both => other both.1⟩

/-- The parser after some more types have got a place. -/
structure Adds (p q : PacketParser) (types : List OxmType) : Prop where
  memory : q.memory = p.memory
  binds : ∀ t, q.Binds t ↔ p.Binds t ∨ t ∈ types

theorem Adds.nothing (p : PacketParser) : p.Adds p [] := ⟨rfl, fun t => by simp⟩

theorem Adds.trans {types' : List OxmType} (first : p.Adds q types) (second : q.Adds r types') :
    p.Adds r (types ++ types') where
  memory := second.memory.trans first.memory
  binds t := by rw [second.binds, first.binds, or_assoc, List.mem_append]

theorem Adds.byte (adds : p.Adds q types) : q.byte = p.byte := by
  funext i
  rw [PacketParser.byte, adds.memory, PacketParser.byte]

theorem Adds.word (adds : p.Adds q types) (i : Nat) : q.word i = wordAt p.byte i := by
  rw [← adds.byte]
  rfl

theorem bindOfb_adds {new : List (OxmType × Address)} (types : List OxmType)
    (of : new.map Prod.fst = types) (basic : ∀ t ∈ types, t.ns = OPENFLOW_BASIC)
    (result : p.bindOfb new = .ok q) : p.Adds q types ∧ q.ipv6 = p.ipv6 := by
  subst of
  obtain ⟨after, bound, rest⟩ := bind_ok result
  obtain rfl : { p with ofbBindings := after } = q := by injection rest
  refine ⟨⟨rfl, fun t => ?_⟩, rfl⟩
  rw [binds_iff, binds_iff, bindAll_bound _ bound]
  have new_iff : t ∈ new.map Prod.fst ↔
      t.ns = OPENFLOW_BASIC ∧ ∃ e ∈ new, e.1.id.toNat = t.id.toNat := by
    constructor
    · intro mem
      obtain ⟨e, memE, rfl⟩ := List.mem_map.mp mem
      exact ⟨basic _ mem, e, memE, rfl⟩
    · rintro ⟨ns, e, mem, same⟩
      have there := List.mem_map_of_mem (f := Prod.fst) mem
      obtain rfl : e.1 = t := by
        have nsE := basic _ there
        generalize e.1 = u at nsE same
        obtain ⟨_, _⟩ := u
        obtain ⟨_, _⟩ := t
        simp only [OxmType.mk.injEq]
        exact ⟨nsE.trans ns.symm, BitVec.eq_of_toNat_eq same⟩
      exact there
  rw [new_iff, and_or_left]
  exact or_right_comm

/-! ## The layers -/

theorem parseL4_adds {protocol : Byte} {data dataLen : Nat}
    (result : p.parseL4 protocol data dataLen = .ok q) : p.Adds q (l4Carried protocol dataLen) := by
  have same {l : List OxmType} (eq : Except.ok (ε := ParserError) p = .ok q) (none : l = []) :
      p.Adds q l := by
    injection eq with eq
    subst eq none
    exact .nothing p
  unfold parseL4 at result
  unfold l4Carried
  split_ifs at result ⊢
  · exact (bindOfb_adds [tcpSrc, tcpDst] rfl (by decide) result).1
  · exact same result rfl
  · exact (bindOfb_adds [udpSrc, udpDst] rfl (by decide) result).1
  · exact same result rfl
  · exact (bindOfb_adds [icmpType, icmpCode] rfl (by decide) result).1
  · exact same result rfl
  · exact same result rfl

theorem parseIpv4_adds {data dataLen : Nat} (result : p.parseIpv4 data dataLen = .ok q) :
    p.Adds q (ipv4Carried p.byte data dataLen) := by
  unfold parseIpv4 at result
  unfold ipv4Carried
  split_ifs at result ⊢ with len
  · obtain ⟨middle, first, rest⟩ := bind_ok result
    obtain ⟨adds, -⟩ := bindOfb_adds [ipProto, ipv4Src, ipv4Dst] rfl (by decide) first
    have header : middle.ipv4HeaderLength data = ((p.byte data).extractLsb' 0 4).toNat * 4 := by
      rw [← adds.byte]
      rfl
    rw [header, adds.byte] at rest
    refine adds.trans ?_
    split_ifs at rest ⊢
    · exact parseL4_adds rest
    · injection rest with same
      exact same ▸ .nothing middle
  · injection result with same
    exact same ▸ .nothing p

theorem parseArp_adds {data dataLen : Nat} (result : p.parseArp data dataLen = .ok q) :
    p.Adds q (arpCarried p.byte data dataLen) := by
  have same {l : List OxmType} (eq : Except.ok (ε := ParserError) p = .ok q) (none : l = []) :
      p.Adds q l := by
    injection eq with eq
    subst eq none
    exact .nothing p
  unfold parseArp at result
  unfold arpCarried
  by_cases len : 28 ≤ dataLen
  · rw [if_pos len] at result ⊢
    by_cases other : p.word data ≠ 1 ∨ p.word (data + 2) ≠ 0x0800 ∨ p.byte (data + 4) ≠ 6 ∨
        p.byte (data + 5) ≠ 4
    · rw [if_pos other] at result
      exact same result (if_pos other)
    · rw [if_neg other] at result
      have types : (if wordAt p.byte data ≠ 1 ∨ wordAt p.byte (data + 2) ≠ 0x0800 ∨
          p.byte (data + 4) ≠ 6 ∨ p.byte (data + 5) ≠ 4 then [] else
            [arpOp, arpSha, arpTha, arpSpa, arpTpa]) = [arpOp, arpSha, arpTha, arpSpa, arpTpa] :=
        if_neg other
      rw [types]
      exact (bindOfb_adds [arpOp, arpSha, arpTha, arpSpa, arpTpa] rfl (by decide) result).1
  · rw [if_neg len] at result
    exact same result (if_neg len)

theorem parseIpv6_adds {data dataLen : Nat} (null : p.ipv6 = none)
    (result : p.parseIpv6 data dataLen = .ok q) : p.Adds q (ipv6Carried p.byte data dataLen) := by
  unfold parseIpv6 at result
  by_cases len : 40 ≤ dataLen
  · rw [if_pos len] at result
    obtain ⟨middle, first, rest⟩ := bind_ok result
    obtain ⟨adds, header⟩ := bindOfb_adds [ipv6Src, ipv6Dst, ipProto] rfl (by decide) first
    have adds : p.Adds middle [ipv6Src, ipv6Dst, ipProto] := ⟨adds.memory, adds.binds⟩
    have header : middle.ipv6 = some data := header
    simp only [header, adds.byte] at rest
    refine adds.trans ?_
    by_cases more : 40 < dataLen
    · rw [if_pos more]
      exact parseL4_adds ((if_pos more).symm.trans rest)
    · rw [if_neg more]
      injection (if_neg more).symm.trans rest with same
      exact same ▸ .nothing middle
  · rw [if_neg len] at result
    obtain ⟨middle, first, rest⟩ := bind_ok result
    injection first with same
    simp only [← same, null] at rest
    cases rest

theorem parseL3_adds {ethType : BitVec 16} {data dataLen : Nat} (null : p.ipv6 = none)
    (result : p.parseL3 ethType data dataLen = .ok q) :
    p.Adds q (l3Carried p.byte ethType data dataLen) := by
  unfold parseL3 at result
  unfold l3Carried
  split_ifs at result ⊢
  · exact parseIpv4_adds result
  · exact parseArp_adds result
  · exact parseIpv6_adds null result
  · injection result with same
    exact same ▸ .nothing p

theorem parseL2_adds {dataLen : Nat} (null : p.ipv6 = none) (result : p.parseL2 dataLen = .ok q) :
    p.Adds q (l2Carried p.byte dataLen) := by
  unfold parseL2 at result
  unfold l2Carried
  have tag : p.word 12 = wordAt p.byte 12 := rfl
  rw [tag] at result
  split_ifs at result ⊢ with len tagged room
  · obtain ⟨middle, first, rest⟩ := bind_ok result
    obtain ⟨adds, header⟩ := bindOfb_adds [ethType, ethSrc, ethDst, vlanVid] rfl (by decide) first
    have rest := parseL3_adds (header.trans null) rest
    rw [adds.byte, adds.word] at rest
    exact adds.trans rest
  · have none : p.Adds q (l3Carried p.byte 0 0 dataLen) := parseL3_adds null result
    exact none
  · obtain ⟨middle, first, rest⟩ := bind_ok result
    obtain ⟨adds, header⟩ := bindOfb_adds [ethType, ethSrc, ethDst] rfl (by decide) first
    have rest := parseL3_adds (header.trans null) rest
    rw [adds.byte, adds.word] at rest
    exact adds.trans rest
  · injection result with same
    exact same ▸ .nothing p

/-! ## The constructor -/

theorem bindNonof_adds {t : OxmType} {place : Address} (other : t.ns = NON_OPENFLOW)
    (result : p.bindNonof [(t, place)] = .ok q) : p.Adds q [t] ∧ q.ipv6 = p.ipv6 := by
  obtain ⟨after, bound, rest⟩ := bind_ok result
  obtain rfl : { p with nonofBindings := after } = q := by injection rest
  refine ⟨⟨rfl, fun u => ?_⟩, rfl⟩
  rw [binds_iff, binds_iff, bindAll_bound _ bound]
  have new_iff : u ∈ [t] ↔ u.ns = NON_OPENFLOW ∧ ∃ e ∈ [(t, place)], e.1.id.toNat = u.id.toNat := by
    obtain ⟨ns, id⟩ := t
    obtain ⟨ns', id'⟩ := u
    obtain rfl : ns = NON_OPENFLOW := other
    simp only [List.mem_singleton, OxmType.mk.injEq, exists_eq_left, BitVec.toNat_inj]
    exact and_congr_right fun _ => eq_comm
  rw [new_iff, and_or_left]
  exact or_assoc.symm

theorem init_binds (pi : PacketIn) (dpid : BitVec 64) (out : BitVec 32) (t : OxmType) :
    ¬(init pi dpid out).Binds t := by
  have none {n i : Nat} : ¬∃ place : Address, (List.replicate n none)[i]? = some (some place) := by
    rintro ⟨place, bound⟩
    rw [List.getElem?_replicate] at bound
    split at bound <;> cases bound
  rw [binds_iff]
  exact not_or.mpr ⟨fun both => none both.2, fun both => none both.2⟩

theorem init_byte (pi : PacketIn) (dpid : BitVec 64) (out : BitVec 32) :
    (init pi dpid out).byte = fun i => (pi.data.getD []).getD i 0 := rfl

/-- **The parser has a place for the types that the frame carries, and for no others.** -/
theorem construct_carried {pi : PacketIn} {dpid : BitVec 64} {out : BitVec 32}
    (accepted : construct pi dpid out = .ok p) (t : OxmType) : p.Binds t ↔ t ∈ carried pi := by
  obtain ⟨p₁, first, rest⟩ := bind_ok accepted
  obtain ⟨p₂, second, rest⟩ := bind_ok rest
  obtain ⟨p₃, third, rest⟩ := bind_ok rest
  obtain ⟨adds₁, null₁⟩ := bindOfb_adds [inPort] rfl (by decide) first
  obtain ⟨adds₂, null₂⟩ := bindNonof_adds rfl second
  obtain ⟨adds₃, null₃⟩ := bindNonof_adds rfl third
  have adds : (init pi dpid out).Adds p₃ [inPort, switchId, outPort] :=
    (adds₁.trans adds₂).trans adds₃
  have null : p₃.ipv6 = none := null₃.trans (null₂.trans null₁)
  have all : (init pi dpid out).Adds p (carried pi) := by
    refine adds.trans ?_
    cases found : pi.data with
    | none =>
        rw [found] at rest
        injection rest with same
        exact same ▸ .nothing p₃
    | some data =>
        rw [found] at rest
        have layers := parseL2_adds null rest
        rw [adds.byte, init_byte, found] at layers
        exact layers
  rw [all.binds]
  exact or_iff_right (init_binds pi dpid out t)

end PacketParser

end Drunos.Parser
