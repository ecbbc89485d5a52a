/-
# Drunos.Parser.Layers — the headers of a frame stand apart

Each layer starts where the one before it ends, so no byte has bits of two types (`construct_apart`).
There is one exception. The header of IPv4 tells its own length, and if that is less than its fields
take, the layer above lies over them (`ShortIpv4`).
-/
import Drunos.Parser.Bounds
import Drunos.Parser.Frame
import Mathlib.Data.List.Pairwise

namespace Drunos.Parser

open Drunos.Oxm OpenflowBasic Bits

set_option autoImplicit false

/-- The bytes of two values are different ones. -/
def Clear (t : OxmType) (place : Address) (u : OxmType) (place' : Address) : Prop :=
  ∀ b ∈ writeRange (nbits t) place, b ∉ writeRange (nbits u) place'

theorem Clear.symm {t u : OxmType} {place place' : Address} (clear : Clear t place u place') :
    Clear u place' t place := fun b mem mem' => clear b mem' mem

theorem Clear.of_le {t u : OxmType} {i j : Int} (less : i + numBlocks (nbits t) ≤ j) :
    Clear t (.frame i) u (.frame j) := by
  intro b mem mem'
  simp only [writeRange, List.mem_map, List.mem_range, Address.shift] at mem mem'
  obtain ⟨k, _, rfl⟩ := mem
  obtain ⟨k', _, same⟩ := mem'
  injection same with same
  omega

theorem Clear.members_of_le {t u : OxmType} {i j : Int} (less : i + numBlocks (nbits t) ≤ j) :
    Clear t (.members i) u (.members j) := by
  intro b mem mem'
  simp only [writeRange, List.mem_map, List.mem_range, Address.shift] at mem mem'
  obtain ⟨k, _, rfl⟩ := mem
  obtain ⟨k', _, same⟩ := mem'
  injection same with same
  omega

theorem Clear.members_frame {t u : OxmType} {i j : Int} : Clear t (.members i) u (.frame j) := by
  intro b mem mem'
  simp only [writeRange, List.mem_map, Address.shift] at mem mem'
  obtain ⟨k, _, rfl⟩ := mem
  obtain ⟨k', _, same⟩ := mem'
  cases same

/-! ## Binding -/

theorem bindAll_places (ns : BitVec 16) : ∀ {new : List (OxmType × Address)} {bindings after : Bindings},
    bindAll ns bindings new = .ok after → ∀ {i : Nat} {place : Address},
      after[i]? = some (some place) →
        bindings[i]? = some (some place) ∨ ∃ e ∈ new, e.1.id.toNat = i ∧ e.2 = place
  | [], bindings, after, result, i, place, here => by
      obtain rfl : bindings = after := by injection result
      exact .inl here
  | (t, place') :: rest, bindings, after, result, i, place, here => by
      obtain ⟨middle, first, later⟩ := bind_ok result
      rcases bindAll_places ns later here with before | ⟨e, mem, same⟩
      · unfold bindAt at first
        split at first
        · cases first
        · cases first
        · injection first with eq
          rw [← eq] at before
          rcases PacketParser.set_bound before with ⟨same, rfl⟩ | old
          · exact .inr ⟨(t, place'), by simp, same, rfl⟩
          · exact .inl old
      · exact .inr ⟨e, List.mem_cons_of_mem _ mem, same⟩

namespace PacketParser

variable {p q : PacketParser}

theorem bindOfb_places {new : List (OxmType × Address)} (basic : ∀ e ∈ new, e.1.ns = OPENFLOW_BASIC)
    (result : p.bindOfb new = .ok q) {t : OxmType} {place : Address} (bound : q.access t = .ok place) :
    p.access t = .ok place ∨ (t, place) ∈ new := by
  obtain ⟨after, all, rest⟩ := bind_ok result
  obtain rfl : { p with ofbBindings := after } = q := by injection rest
  rcases access_ns bound with ns | ns
  · rcases bindAll_places _ all ((access_basic ns).mp bound) with old | ⟨⟨u, _⟩, mem, same, rfl⟩
    · exact .inl ((access_basic ns).mpr old)
    · obtain rfl : u = t := by
        have nsU := basic _ mem
        cases t; cases u
        simp only [OxmType.mk.injEq]
        exact ⟨nsU.trans ns.symm, BitVec.eq_of_toNat_eq same⟩
      exact .inr mem
  · have here := (access_nonof ns).mp bound
    exact .inl ((access_nonof ns).mpr here)

/-- What is bound ends before the limit, each type with bytes of its own. -/
structure Stacked (p : PacketParser) (limit : Nat) : Prop where
  below : ∀ t (i : Int), p.access t = .ok (.frame i) → i + numBlocks (nbits t) ≤ limit
  apart : ∀ t u place place', t ≠ u → p.access t = .ok place → p.access u = .ok place' →
    Clear t place u place'

theorem Stacked.mono {limit limit' : Nat} (stacked : p.Stacked limit) (le : limit ≤ limit') :
    p.Stacked limit' where
  below t i bound := (stacked.below t i bound).trans (by omega)
  apart := stacked.apart

/-- Types and where they stand in a header. -/
abbrev Layout := List (OxmType × Nat)

/-- The fields of a header of this size do not overlap. -/
def Layout.Proper (layout : Layout) (size : Nat) : Prop :=
  (∀ e ∈ layout, e.1.ns = OPENFLOW_BASIC ∧ e.2 + numBlocks (nbits e.1) ≤ size) ∧
    layout.Pairwise fun e e' =>
      e.2 + numBlocks (nbits e.1) ≤ e'.2 ∨ e'.2 + numBlocks (nbits e'.1) ≤ e.2

instance (layout : Layout) (size : Nat) : Decidable (layout.Proper size) :=
  inferInstanceAs (Decidable (_ ∧ _))

/-- A header at the limit moves the limit to its end. -/
theorem bindOfb_stacked {limit size : Nat} {new : List (OxmType × Address)} (layout : Layout)
    (of : new = layout.map fun e => (e.1, .frame (limit + e.2))) (proper : layout.Proper size)
    (stacked : p.Stacked limit) (result : p.bindOfb new = .ok q) : q.Stacked (limit + size) := by
  have basic : ∀ e ∈ new, e.1.ns = OPENFLOW_BASIC := by
    rw [of, List.forall_mem_map]
    exact fun e mem => (proper.1 e mem).1
  have placed : ∀ {t place}, (t, place) ∈ new → ∃ k, (t, k) ∈ layout ∧ place = .frame (limit + k) := by
    intro t place mem
    rw [of, List.mem_map] at mem
    obtain ⟨⟨_, k⟩, mem, same⟩ := mem
    obtain ⟨rfl, rfl⟩ := Prod.mk.injEq .. ▸ same
    exact ⟨k, mem, rfl⟩
  have above : ∀ {t u place place'}, p.access t = .ok place → (u, place') ∈ new →
      Clear t place u place' := by
    intro t u place place' bound mem
    obtain ⟨k, -, rfl⟩ := placed mem
    cases place with
    | frame i =>
        have ends := stacked.below t i bound
        exact .of_le (by omega)
    | members i => exact .members_frame
  constructor
  · intro t i bound
    rcases bindOfb_places basic result bound with old | mem
    · have ends := stacked.below t i old
      omega
    · obtain ⟨k, there, same⟩ := placed mem
      obtain rfl : i = limit + k := by injection same
      have room := (proper.1 _ there).2
      simp only at room
      omega
  · intro t u place place' ne bound bound'
    rcases bindOfb_places basic result bound with old | mem <;>
      rcases bindOfb_places basic result bound' with old' | mem'
    · exact stacked.apart t u place place' ne old old'
    · exact above old mem'
    · exact (above old' mem).symm
    · obtain ⟨k, there, rfl⟩ := placed mem
      obtain ⟨k', there', rfl⟩ := placed mem'
      have both : Std.Symm fun e e' : OxmType × Nat =>
          e.2 + numBlocks (nbits e.1) ≤ e'.2 ∨ e'.2 + numBlocks (nbits e'.1) ≤ e.2 :=
        ⟨fun _ _ => Or.symm⟩
      have other : (t, k) ≠ (u, k') := fun same => ne (congrArg Prod.fst same)
      rcases proper.2.forall there there' other with less | less
      · exact .of_le (by simp only at less; omega)
      · exact (Clear.of_le (by simp only at less; omega)).symm

/-! ## The layers -/

theorem Stacked.of_ok {limit limit' : Nat} (stacked : p.Stacked limit) (le : limit ≤ limit')
    (result : Except.ok (ε := ParserError) p = .ok q) : q.Stacked limit' := by
  injection result with same
  exact same ▸ stacked.mono le

theorem parseL4_stacked {protocol : Byte} {data dataLen : Nat} (stacked : p.Stacked data)
    (result : p.parseL4 protocol data dataLen = .ok q) : q.Stacked (data + 4) := by
  unfold parseL4 at result
  split_ifs at result
  · exact bindOfb_stacked [(tcpSrc, 0), (tcpDst, 2)] rfl (by decide) stacked result
  · exact stacked.of_ok (by omega) result
  · exact bindOfb_stacked [(udpSrc, 0), (udpDst, 2)] rfl (by decide) stacked result
  · exact stacked.of_ok (by omega) result
  · exact bindOfb_stacked [(icmpType, 0), (icmpCode, 1)] rfl (by decide) stacked result
  · exact stacked.of_ok (by omega) result
  · exact stacked.of_ok (by omega) result

theorem parseIpv4_stacked {data dataLen : Nat} (stacked : p.Stacked data) (long : ¬p.ipv4HeaderLength data < 20)
    (result : p.parseIpv4 data dataLen = .ok q) : ∃ limit, q.Stacked limit := by
  unfold parseIpv4 at result
  split_ifs at result
  · obtain ⟨middle, first, rest⟩ := bind_ok result
    have header : middle.ipv4HeaderLength data = p.ipv4HeaderLength data := by
      rw [ipv4HeaderLength, (bindOfb_adds [ipProto, ipv4Src, ipv4Dst] rfl (by decide) first).1.byte]
      rfl
    have bound : middle.Stacked (data + 20) :=
      bindOfb_stacked [(ipProto, 9), (ipv4Src, 12), (ipv4Dst, 16)] rfl (by decide) stacked first
    have enough : 20 ≤ p.ipv4HeaderLength data := Nat.le_of_not_lt long
    rw [header] at rest
    split_ifs at rest
    · exact ⟨_, parseL4_stacked (bound.mono (by omega)) rest⟩
    · exact ⟨_, bound.of_ok le_rfl rest⟩
  · exact ⟨_, stacked.of_ok le_rfl result⟩

theorem parseArp_stacked {data dataLen : Nat} (stacked : p.Stacked data)
    (result : p.parseArp data dataLen = .ok q) : ∃ limit, q.Stacked limit := by
  unfold parseArp at result
  split_ifs at result
  · exact ⟨_, stacked.of_ok le_rfl result⟩
  · have bound : q.Stacked (data + 28) :=
      bindOfb_stacked [(arpOp, 6), (arpSha, 8), (arpTha, 18), (arpSpa, 14), (arpTpa, 24)] rfl
        (by decide) stacked result
    exact ⟨_, bound⟩
  · exact ⟨_, stacked.of_ok le_rfl result⟩

theorem parseIpv6_stacked {data dataLen : Nat} (null : p.ipv6 = none) (stacked : p.Stacked data)
    (result : p.parseIpv6 data dataLen = .ok q) : ∃ limit, q.Stacked limit := by
  unfold parseIpv6 at result
  by_cases len : 40 ≤ dataLen
  · rw [if_pos len] at result
    obtain ⟨middle, first, rest⟩ := bind_ok result
    have bound : middle.Stacked (data + 40) :=
      bindOfb_stacked (p := { p with ipv6 := some data }) [(ipv6Src, 8), (ipv6Dst, 24), (ipProto, 6)]
        rfl (by decide) ⟨stacked.below, stacked.apart⟩ first
    have header : middle.ipv6 = some data :=
      (bindOfb_adds [ipv6Src, ipv6Dst, ipProto] rfl (by decide) first).2
    simp only [header] at rest
    by_cases more : 40 < dataLen
    · exact ⟨_, parseL4_stacked bound ((if_pos more).symm.trans rest)⟩
    · exact ⟨_, bound.of_ok le_rfl ((if_neg more).symm.trans rest)⟩
  · rw [if_neg len] at result
    obtain ⟨middle, first, rest⟩ := bind_ok result
    injection first with same
    simp only [← same, null] at rest
    cases rest

theorem parseL3_stacked {ethType : BitVec 16} {data dataLen : Nat} (null : p.ipv6 = none)
    (stacked : p.Stacked data) (long : ethType = 0x0800 → ¬p.ipv4HeaderLength data < 20)
    (result : p.parseL3 ethType data dataLen = .ok q) : ∃ limit, q.Stacked limit := by
  unfold parseL3 at result
  split_ifs at result with ipv4
  · exact parseIpv4_stacked stacked (long ipv4) result
  · exact parseArp_stacked stacked result
  · exact parseIpv6_stacked null stacked result
  · exact ⟨_, stacked.of_ok le_rfl result⟩

/-- Where the header after that of Ethernet starts. -/
def l3Start (p : PacketParser) : Nat := if p.word 12 = 0x8100 then 18 else 14

/-- The header of IPv4 ends, by what it tells, before its last field. -/
def ShortIpv4 (p : PacketParser) : Prop :=
  p.word (p.l3Start - 2) = 0x0800 ∧ p.ipv4HeaderLength p.l3Start < 20

theorem shortIpv4_congr (memory : p.memory = q.memory) : p.ShortIpv4 ↔ q.ShortIpv4 := by
  obtain ⟨m, _, _, _, _⟩ := p
  obtain ⟨m', _, _, _, _⟩ := q
  obtain rfl : m = m' := memory
  rfl

theorem parseL2_stacked {dataLen : Nat} (null : p.ipv6 = none) (stacked : p.Stacked 0)
    (long : ¬p.ShortIpv4) (result : p.parseL2 dataLen = .ok q) : ∃ limit, q.Stacked limit := by
  have same {middle : PacketParser} {types : List OxmType} (adds : p.Adds middle types) (i : Nat) :
      middle.ipv4HeaderLength i = p.ipv4HeaderLength i := by
    rw [ipv4HeaderLength, adds.byte, ipv4HeaderLength]
  unfold parseL2 at result
  split_ifs at result with len tagged room
  · obtain ⟨middle, first, rest⟩ := bind_ok result
    obtain ⟨adds, header⟩ := bindOfb_adds [ethType, ethSrc, ethDst, vlanVid] rfl (by decide) first
    have bound : middle.Stacked (0 + 18) :=
      bindOfb_stacked [(ethType, 16), (ethSrc, 6), (ethDst, 0), (vlanVid, 14)] rfl (by decide) stacked
        first
    refine parseL3_stacked (header.trans null) bound (fun ipv4 short => long ?_) rest
    rw [adds.word] at ipv4
    rw [same adds] at short
    rw [ShortIpv4, l3Start, if_pos tagged]
    exact ⟨ipv4, short⟩
  · exact parseL3_stacked null stacked (by simp) result
  · obtain ⟨middle, first, rest⟩ := bind_ok result
    obtain ⟨adds, header⟩ := bindOfb_adds [ethType, ethSrc, ethDst] rfl (by decide) first
    have bound : middle.Stacked (0 + 14) :=
      bindOfb_stacked [(ethType, 12), (ethSrc, 6), (ethDst, 0)] rfl (by decide) stacked first
    refine parseL3_stacked (header.trans null) bound (fun ipv4 short => long ?_) rest
    rw [adds.word] at ipv4
    rw [same adds] at short
    rw [ShortIpv4, l3Start, if_neg tagged]
    exact ⟨ipv4, short⟩
  · exact ⟨_, stacked.of_ok le_rfl result⟩

/-! ## The constructor -/

variable {pi : PacketIn} {dpid : BitVec 64} {out : BitVec 32}

/-- The types of the parser's own values. -/
def memberLayout : Layout := [(inPort, 0), (outPort, 4), (switchId, 8)]

theorem started_place {t : OxmType} {place : Address}
    (bound : (started pi dpid out).access t = .ok place) :
    ∃ k, (t, k) ∈ memberLayout ∧ place = .members k := by
  obtain ⟨ns, id⟩ := t
  rcases access_ns bound with rfl | rfl
  · rcases set_bound ((access_basic rfl).mp bound) with ⟨same, rfl⟩ | bound
    · obtain rfl : id = 0#7 := BitVec.eq_of_toNat_eq same.symm
      exact ⟨0, by decide, rfl⟩
    · exact absurd bound replicate_unbound
  · rcases set_bound ((access_nonof rfl).mp bound) with ⟨same, rfl⟩ | bound
    · obtain rfl : id = 2#7 := BitVec.eq_of_toNat_eq same.symm
      exact ⟨4, by decide, rfl⟩
    rcases set_bound bound with ⟨same, rfl⟩ | bound
    · obtain rfl : id = 1#7 := BitVec.eq_of_toNat_eq same.symm
      exact ⟨8, by decide, rfl⟩
    · exact absurd bound replicate_unbound

theorem started_stacked : (started pi dpid out).Stacked 0 := by
  have apart : ∀ e ∈ memberLayout, ∀ e' ∈ memberLayout, e.1 ≠ e'.1 →
      e.2 + numBlocks (nbits e.1) ≤ e'.2 ∨ e'.2 + numBlocks (nbits e'.1) ≤ e.2 := by
    decide
  constructor
  · intro t i bound
    obtain ⟨k, -, same⟩ := started_place bound
    cases same
  · intro t u place place' ne bound bound'
    obtain ⟨k, mem, rfl⟩ := started_place bound
    obtain ⟨k', mem', rfl⟩ := started_place bound'
    rcases apart _ mem _ mem' ne with less | less
    · exact .members_of_le (by simp only at less; omega)
    · exact (Clear.members_of_le (by simp only at less; omega)).symm

/-- No byte has bits of two types, if the header of IPv4 is as long as its fields. -/
theorem construct_apart {p : PacketParser} (accepted : construct pi dpid out = .ok p)
    (long : ¬p.ShortIpv4) {t u : OxmType} {place place' : Address} (ne : t ≠ u)
    (bound : p.access t = .ok place) (bound' : p.access u = .ok place') : Clear t place u place' := by
  have memory : p.memory = (started pi dpid out).memory := (construct_made accepted).1.memory
  have start : ¬(started pi dpid out).ShortIpv4 := mt (shortIpv4_congr memory).mpr long
  rw [construct_eq] at accepted
  split_ifs at accepted
  · obtain ⟨limit, stacked⟩ := parseL2_stacked rfl started_stacked start accepted
    exact stacked.apart t u place place' ne bound bound'
  · exact (started_stacked.of_ok le_rfl accepted).apart t u place place' ne bound bound'

end PacketParser

end Drunos.Parser
