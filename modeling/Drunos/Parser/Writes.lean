/-
# Drunos.Parser.Writes — what a modification does to the packet

A modification reads the whole value of a type, puts the patch in and writes whole bytes back. Its own
bits are then the patched value. The bits above the value in its first byte become zero, and a bit that
it changes is changed for every type that has it. So the rest of the packet is as it was exactly if the
bits above were zero and the changed bits are nobody else's (`modify_writes_iff`).
-/
import Drunos.Parser.Buffers
import Drunos.Parser.Layers

namespace Drunos.Parser

open Drunos.Oxm Drunos.Theory Bits

set_option autoImplicit false

/-- Bit `i` of a number of `n` bits in memory, by its byte and its index there. -/
def bitOf (n : Nat) (place : Address) (i : Nat) : Address × Nat := (placeOf n place i, i % 8)

theorem bitOf_injective {n : Nat} {place : Address} {i j : Nat}
    (same : bitOf n place i = bitOf n place j) : i = j := by
  obtain ⟨byte, bit⟩ := Prod.mk.injEq .. ▸ same
  have block := distinct_places place (i / 8) (j / 8) byte
  omega

/-- A bit of a byte that is written. -/
theorem exists_bitOf {n j : Nat} {place b : Address} (mem : b ∈ writeRange n place) (bound : j < 8) :
    ∃ i, i / 8 < numBlocks n ∧ bitOf n place i = (b, j) := by
  obtain ⟨k, range, rfl⟩ := List.mem_map.mp mem
  have less := List.mem_range.mp range
  have div : (8 * k + j) / 8 = k := by omega
  have mod : (8 * k + j) % 8 = j := by omega
  exact ⟨8 * k + j, by omega, by simp [bitOf, placeOf, div, mod]⟩

namespace Memory

def bit (m : Memory) (b : Address × Nat) : Bool := (m b.1).getLsbD b.2

end Memory

theorem ofBuffer_getLsbD {n i : Nat} (m : Memory) (place : Address) (bound : i < n) :
    (ofBuffer n m place).getLsbD i = m.bit (bitOf n place i) :=
  ofBuffer_bit m place bound

theorem toBuffer_getLsbD {n i : Nat} (v : BitVec n) (place : Address) (m : Memory)
    (bound : i / 8 < numBlocks n) : Memory.bit (toBuffer v place m) (bitOf n place i) = v.getLsbD i :=
  toBuffer_bit v place m bound

section

variable [OxmTypes]

namespace PacketParser

variable {p q : PacketParser} {t : OxmType} {patch : Field} {place : Address}

def valueAt (p : PacketParser) (t : OxmType) (place : Address) : BitVec (nbits t) :=
  ofBuffer (nbits t) p.memory place

/-- The patch is in the value of its type, and in nothing else. -/
structure Writes (p q : PacketParser) (patch : Field) (place : Address) : Prop where
  own : ∀ m : BitVec (nbits patch.type), q.load ⟨patch.type, m⟩ =
    .ok (.ofMask ⟨patch.type, m⟩ (patch.bits.write (p.valueAt patch.type place)))
  frame : ∀ (b : Address) (j : Nat), j < 8 →
    (∀ i < nbits patch.type, bitOf (nbits patch.type) place i ≠ (b, j)) →
      q.memory.bit (b, j) = p.memory.bit (b, j)
  others : ∀ m : Mask, m.type ≠ patch.type → q.load m = p.load m

/-- The bits above a value in its first byte are zero. -/
def TopClear (p : PacketParser) (t : OxmType) (place : Address) : Prop :=
  ∀ i, nbits t ≤ i → i / 8 < numBlocks (nbits t) → p.memory.bit (bitOf (nbits t) place i) = false

/-- The bits that the patch changes are bits of no other type. -/
def Alone (p : PacketParser) (patch : Field) (place : Address) : Prop :=
  ∀ i < nbits patch.type,
    (patch.bits.write (p.valueAt patch.type place)).getLsbD i ≠
        (p.valueAt patch.type place).getLsbD i →
      ∀ u place', u ≠ patch.type → p.access u = .ok place' → ∀ k < nbits u,
        bitOf (nbits u) place' k ≠ bitOf (nbits patch.type) place i

/-- The parser after a modification. -/
def written (p : PacketParser) (patch : Field) (place : Address) : PacketParser :=
  { p with memory := toBuffer (patch.bits.write (p.valueAt patch.type place)) place p.memory }

theorem modify_eq (bound : p.access patch.type = .ok place) :
    p.modify patch = .ok (p.written patch place) := by
  rw [modify, bound]
  rfl

theorem load_eq (bound : p.access t = .ok place) (m : BitVec (nbits t)) :
    p.load ⟨t, m⟩ = .ok (.ofMask ⟨t, m⟩ (p.valueAt t place)) := by
  rw [load]
  simp only [bound]
  rfl

/-- A bit of the written bytes is a bit of the new value, or zero. -/
theorem written_bit {i : Nat} (bound : i / 8 < numBlocks (nbits patch.type)) :
    (p.written patch place).memory.bit (bitOf (nbits patch.type) place i) =
      (patch.bits.write (p.valueAt patch.type place)).getLsbD i :=
  toBuffer_getLsbD _ place p.memory bound

theorem written_of_not_mem {b : Address × Nat} (outside : b.1 ∉ writeRange (nbits patch.type) place) :
    (p.written patch place).memory.bit b = p.memory.bit b := by
  have same := toBuffer_of_not_mem (patch.bits.write (p.valueAt patch.type place)) place p.memory outside
  simp only [Memory.bit, written, same]

theorem written_own (bound : p.access patch.type = .ok place) (m : BitVec (nbits patch.type)) :
    (p.written patch place).load ⟨patch.type, m⟩ =
      .ok (.ofMask ⟨patch.type, m⟩ (patch.bits.write (p.valueAt patch.type place))) := by
  rw [load_eq (p := p.written patch place) bound]
  have value := ofBuffer_toBuffer (patch.bits.write (p.valueAt patch.type place)) place p.memory
  rw [show (p.written patch place).valueAt patch.type place = _ from value]

theorem written_frame (clear : p.TopClear patch.type place) {b : Address} {j : Nat} (bound : j < 8)
    (outside : ∀ i < nbits patch.type, bitOf (nbits patch.type) place i ≠ (b, j)) :
    (p.written patch place).memory.bit (b, j) = p.memory.bit (b, j) := by
  by_cases mem : b ∈ writeRange (nbits patch.type) place
  · obtain ⟨i, block, same⟩ := exists_bitOf mem bound
    have above : nbits patch.type ≤ i := by
      by_contra less
      exact outside i (by omega) same
    rw [← same, written_bit block, clear i above block]
    exact BitVec.getLsbD_of_ge _ _ above
  · exact written_of_not_mem mem

/-- A bit of another type is as it was. -/
theorem written_bit_other (clear : p.TopClear patch.type place) (alone : p.Alone patch place)
    {u : OxmType} {place' : Address} (ne : u ≠ patch.type) (bound : p.access u = .ok place') {k : Nat}
    (range : k < nbits u) : (p.written patch place).memory.bit (bitOf (nbits u) place' k) =
      p.memory.bit (bitOf (nbits u) place' k) := by
  by_cases own : ∃ i < nbits patch.type, bitOf (nbits patch.type) place i = bitOf (nbits u) place' k
  · obtain ⟨i, less, same⟩ := own
    rw [← same, written_bit (div_lt_numBlocks less), ← ofBuffer_getLsbD p.memory place less]
    by_contra changed
    exact alone i less changed u place' ne bound k range same.symm
  · refine written_frame clear (Nat.mod_lt k (by decide)) fun i less same => own ⟨i, less, same⟩

theorem written_others (clear : p.TopClear patch.type place) (alone : p.Alone patch place) (m : Mask)
    (ne : m.type ≠ patch.type) : (p.written patch place).load m = p.load m := by
  obtain ⟨u, m⟩ := m
  cases bound : p.access u with
  | error e =>
      have thrown : (p.written patch place).access u = .error e := bound
      simp only [load, bound, thrown]
      rfl
  | ok place' =>
      rw [load_eq bound, load_eq (p := p.written patch place) bound]
      have value : (p.written patch place).valueAt u place' = p.valueAt u place' := by
        refine BitVec.eq_of_getLsbD_eq fun k range => ?_
        rw [valueAt, valueAt, ofBuffer_getLsbD _ _ range, ofBuffer_getLsbD _ _ range]
        exact written_bit_other clear alone ne bound range
      rw [value]

theorem Writes.topClear (writes : p.Writes (p.written patch place) patch place) :
    p.TopClear patch.type place := by
  intro i above block
  have still := writes.frame (placeOf _ place i) (i % 8) (Nat.mod_lt i (by decide)) fun k less same => by
    have eq := bitOf_injective same
    omega
  exact still.symm.trans ((written_bit block).trans (BitVec.getLsbD_of_ge _ _ above))

theorem Writes.alone (writes : p.Writes (p.written patch place) patch place) : p.Alone patch place := by
  intro i less changed u place' ne bound k range same
  have loads := writes.others ⟨u, BitVec.allOnes _⟩ ne
  rw [load_eq bound, load_eq (p := p.written patch place) bound] at loads
  have value : (p.written patch place).valueAt u place' = p.valueAt u place' := by
    simpa [Field.ofMask, MaskedBits.read] using loads
  have bit := congrArg (·.getLsbD k) value
  simp only [valueAt, ofBuffer_getLsbD _ _ range, same, written_bit (div_lt_numBlocks less)] at bit
  exact changed (bit.trans (ofBuffer_getLsbD p.memory place less).symm)

theorem writes_iff (bound : p.access patch.type = .ok place) :
    (∃ q, p.modify patch = .ok q ∧ p.Writes q patch place) ↔
      p.TopClear patch.type place ∧ p.Alone patch place := by
  rw [modify_eq bound]
  constructor
  · rintro ⟨q, same, writes⟩
    obtain rfl : p.written patch place = q := by injection same
    exact ⟨writes.topClear, writes.alone⟩
  · rintro ⟨clear, alone⟩
    exact ⟨_, rfl, written_own bound, fun b j => written_frame clear, written_others clear alone⟩

end PacketParser

end

/-! ## The types runos defines -/

section

open OpenflowBasic

namespace PacketParser

variable {pi : PacketIn} {dpid : BitVec 64} {out : BitVec 32} {p : PacketParser} {patch : Field}
  {place : Address}

/-- All defined types but the identifier of a tag take whole bytes. -/
theorem nbits_whole {t : OxmType} (other : t ≠ vlanVid) : nbits t = 8 * numBlocks (nbits t) := by
  have all : ∀ e ∈ widths, e.1 ≠ vlanVid → e.2 = 8 * numBlocks e.2 := by decide
  show (widths.lookup t).getD 0 = 8 * numBlocks ((widths.lookup t).getD 0)
  cases found : widths.lookup t with
  | none => rfl
  | some n =>
      obtain ⟨before, after, eq, -⟩ := List.lookup_eq_some_iff.mp found
      exact all (t, n) (by simp [eq]) other

theorem topClear_of_whole {t : OxmType} (other : t ≠ vlanVid) : p.TopClear t place := by
  intro i above block
  have whole := nbits_whole other
  omega

/-- Above the identifier, in the first byte of a tag, there are its priority and the drop bit. -/
theorem topClear_vlan : p.TopClear vlanVid place ↔ (p.memory place).extractLsb' 4 4 = 0 := by
  have bits : nbits vlanVid = 12 ∧ numBlocks (nbits vlanVid) = 2 := ⟨rfl, rfl⟩
  have first (i : Nat) (above : 12 ≤ i) (block : i / 8 < 2) :
      placeOf (nbits vlanVid) place i = place := by
    have one : i / 8 = 1 := by omega
    rw [placeOf, bits.2, one]
    cases place <;> simp [Address.shift]
  constructor
  · intro clear
    refine BitVec.eq_of_getLsbD_eq fun j bound => ?_
    have bit := clear (12 + j) (by omega) (by omega)
    rw [Memory.bit, bitOf, first (12 + j) (by omega) (by omega)] at bit
    have index : (12 + j) % 8 = 4 + j := by omega
    simpa [index, bound] using bit
  · intro zero i above block
    rw [bits.1] at above
    rw [bits.2] at block
    have bit := congrArg (·.getLsbD (i - 12)) zero
    have index : 4 + (i - 12) = i % 8 := by omega
    rw [Memory.bit, bitOf, first i above block]
    simpa [BitVec.getLsbD_extractLsb', index, show i - 12 < 4 by omega] using bit

theorem alone_of_clear (accepted : construct pi dpid out = .ok p) (bound : p.access patch.type = .ok place)
    (long : ¬p.ShortIpv4) : p.Alone patch place := by
  intro i less _ u place' ne bound' k range same
  have byte : placeOf (nbits u) place' k = placeOf (nbits patch.type) place i := congrArg Prod.fst same
  exact construct_apart accepted long ne bound' bound _ (placeOf_mem place' range)
    (byte ▸ placeOf_mem place less)

/-- A header of IPv4 of three words: the ports of TCP are the address it comes from. -/
example : ∃ p, construct ⟨some (List.replicate 12 0 ++ [0x08, 0x00, 0x43] ++ List.replicate 8 0 ++
    [0x06] ++ List.replicate 22 0), 1⟩ 1 0 = .ok p ∧
      p.access ipv4Src = .ok (.frame 26) ∧ p.access tcpSrc = .ok (.frame 26) := ⟨_, rfl, rfl, rfl⟩

/-- **A modification leaves the rest of a packet as it was exactly if it is not of a tag with a
priority, and changes no bit that another type has too**; no type has one of another's unless the header
of IPv4 is told to be too short. -/
theorem modify_writes_iff (accepted : construct pi dpid out = .ok p)
    (bound : p.access patch.type = .ok place) :
    ((∃ q, p.modify patch = .ok q ∧ p.Writes q patch place) ↔
      (patch.type = vlanVid → (p.memory place).extractLsb' 4 4 = 0) ∧ p.Alone patch place) ∧
    (¬p.ShortIpv4 → p.Alone patch place) := by
  refine ⟨?_, alone_of_clear accepted bound⟩
  rw [writes_iff bound]
  refine and_congr_left' ?_
  by_cases tag : patch.type = vlanVid
  · rw [tag, topClear_vlan]
    simp
  · simp [tag, topClear_of_whole tag]

/-- A tag of identifier 5 without a priority gets another identifier. -/
theorem modify_writes_iff_plainTag :
    ∃ p, construct ⟨some (List.replicate 12 1 ++ [0x81, 0x00, 0x00, 0x05, 0x88, 0xcc]), 1⟩ 1 0 = .ok p ∧
      ∃ q, p.modify (.exactly vlanVid 7#12) = .ok q ∧
        p.Writes q (.exactly vlanVid 7#12) (.frame 14) := by
  have made : ∃ p, construct ⟨some (List.replicate 12 1 ++ [0x81, 0x00, 0x00, 0x05, 0x88, 0xcc]), 1⟩ 1 0 =
      .ok p ∧ p.access vlanVid = .ok (.frame 14) ∧ (p.memory (.frame 14)).extractLsb' 4 4 = 0 ∧
        p.word (p.l3Start - 2) ≠ 0x0800 := ⟨_, rfl, rfl, by decide, by decide⟩
  obtain ⟨p, accepted, bound, plain, other⟩ := made
  have alone : p.Alone (.exactly vlanVid 7#12) (.frame 14) :=
    (modify_writes_iff accepted bound).2 fun short => other short.1
  exact ⟨p, accepted, (modify_writes_iff accepted bound).1.mpr ⟨fun _ => plain, alone⟩⟩

/-- The priority of a tag is lost when its identifier is modified. -/
theorem modify_losesPriority :
    ¬∀ (pi : PacketIn) (dpid : BitVec 64) (out : BitVec 32) (p : PacketParser) (patch : Field)
      (place : Address), construct pi dpid out = .ok p → p.access patch.type = .ok place →
        ∃ q, p.modify patch = .ok q ∧ p.Writes q patch place := by
  intro all
  have here := all ⟨some (List.replicate 12 1 ++ [0x81, 0x00, 0xe0, 0x05, 0x88, 0xcc]), 1⟩ 1 0 _
    (.exactly vlanVid 7#12) (.frame 14) rfl rfl
  have clear := ((writes_iff rfl).mp here).1
  exact absurd (topClear_vlan.mp clear) (by decide)

end PacketParser

end

end Drunos.Parser
