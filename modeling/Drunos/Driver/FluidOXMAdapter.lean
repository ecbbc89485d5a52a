/-
# Drunos.Driver.FluidOXMAdapter — fields on the wire

`FluidOXMAdapter.cc`. A field stands in a message behind a header of four bytes: its value, and its
mask if it is not exact. The header is libfluid's (`OXMTLV`), of which the model knows what
`WritesHeader` says: that the four bytes are written, that they alone are read, and that what was
written is read. The reader goes by the header and by its own type, whatever its own field is.
-/
import Drunos.Driver.OFDriver
import Drunos.Parser.Buffers

namespace Drunos.Driver

open Drunos.Oxm Drunos.Theory Drunos.Parser Drunos.Parser.Bits

set_option autoImplicit false

/-- What an `OXMTLV` knows of its entry. -/
@[ext]
structure OXMTLV where
  class_ : BitVec 16
  field : BitVec 7
  hasMask : Bool
  length : BitVec 8
  deriving DecidableEq

/-- `OFP_OXM_HEADER_LEN` -/
def headerLen : Nat := 4

/-- `OXMTLV::pack` and `OXMTLV::unpack`. -/
structure Libfluid where
  pack : OXMTLV → Address → Memory → Memory
  unpack : Address → Memory → OXMTLV

/-- Where the header stands. -/
def headerRange (buffer : Address) : List Address :=
  (List.range headerLen).map fun k : Nat => buffer.shift k

/-- The header is written and read. -/
structure Libfluid.WritesHeader (lib : Libfluid) : Prop where
  pack_of_not_mem : ∀ (tlv : OXMTLV) (buffer : Address) (m : Memory) (a : Address),
    a ∉ headerRange buffer → lib.pack tlv buffer m a = m a
  unpack_congr : ∀ (buffer : Address) (m m' : Memory), (∀ a ∈ headerRange buffer, m a = m' a) →
    lib.unpack buffer m = lib.unpack buffer m'
  unpack_pack : ∀ (tlv : OXMTLV) (buffer : Address) (m : Memory),
    lib.unpack buffer (lib.pack tlv buffer m) = tlv

/-- What the constructor throws for a field that OpenFlow has not. -/
inductive AdapterError where
  | nonOpenflow (msg : String) (ns : BitVec 16) (field : BitVec 7)
  deriving DecidableEq

section

variable [OxmTypes]

/-- `type::nbytes`. -/
def nbytes (t : OxmType) : Nat := numBlocks (nbits t)

structure FluidOXMAdapter where
  tlv : OXMTLV
  field : Field

namespace FluidOXMAdapter

/-- The constructor. -/
def ofField (f : Field) : Except AdapterError FluidOXMAdapter :=
  if openflow f.type then
    .ok {
      tlv := {
        class_ := f.type.ns
        field := f.type.id
        hasMask := !f.exact
        length := BitVec.ofNat 8 (nbytes f.type * if f.exact then 1 else 2) }
      field := f }
  else .error (.nonOpenflow "non openflow oxm field" f.type.ns f.type.id)

variable (lib : Libfluid) (w : FluidOXMAdapter) (buffer : Address) (m : Memory)

/-- The place of a value, which is that of its mask if `skip` is the value's size. -/
def body (skip : Nat) : Address := buffer.shift (headerLen + skip : Nat)

def pack : Memory :=
  let m := lib.pack w.tlv buffer m
  let m := toBuffer w.field.bits.value (body buffer 0) m
  if w.field.exact then m else toBuffer w.field.bits.mask (body buffer (nbytes w.field.type)) m

def unpack : FluidOXMAdapter :=
  let t := w.field.type
  let tlv := lib.unpack buffer m
  let value := ofBuffer (nbits t) m (body buffer 0)
  { tlv
    field :=
      if tlv.hasMask then ⟨t, .read value (ofBuffer (nbits t) m (body buffer (nbytes t)))⟩
      else .exactly t value }

end FluidOXMAdapter

end

/-! ## Header, value and mask stand apart -/

theorem not_mem_headerRange {n : Nat} {buffer a : Address} (skip : Nat)
    (mem : a ∈ writeRange n (FluidOXMAdapter.body buffer skip)) : a ∉ headerRange buffer := by
  intro head
  obtain ⟨k, _, rfl⟩ := mem_writeRange.mp mem
  simp only [headerRange, List.mem_map, List.mem_range, headerLen, FluidOXMAdapter.body,
    Address.shift_shift] at head
  obtain ⟨j, bound, same⟩ := head
  have here := buffer.shift_injective same
  omega

theorem not_mem_mask {n : Nat} {buffer a : Address}
    (mem : a ∈ writeRange n (FluidOXMAdapter.body buffer 0)) :
    a ∉ writeRange n (FluidOXMAdapter.body buffer (numBlocks n)) := by
  intro mask
  obtain ⟨k, bound, rfl⟩ := mem_writeRange.mp mem
  obtain ⟨j, _, same⟩ := mem_writeRange.mp mask
  simp only [FluidOXMAdapter.body, headerLen, Address.shift_shift] at same
  have here := buffer.shift_injective same
  omega

section

variable [OxmTypes]

namespace FluidOXMAdapter

variable {lib : Libfluid} (law : lib.WritesHeader) (w : FluidOXMAdapter) (buffer : Address) (m : Memory)

include law in
/-- The header that is read is the one that was written. -/
theorem unpack_header : lib.unpack buffer (w.pack lib buffer m) = w.tlv := by
  have value : lib.unpack buffer (toBuffer w.field.bits.value (body buffer 0)
      (lib.pack w.tlv buffer m)) = w.tlv := by
    rw [law.unpack_congr buffer _ (lib.pack w.tlv buffer m) fun a head =>
      toBuffer_of_not_mem _ _ _ fun mem => not_mem_headerRange 0 mem head]
    exact law.unpack_pack w.tlv buffer m
  rw [pack]
  split
  · exact value
  · rw [law.unpack_congr buffer _ _ fun a head =>
      toBuffer_of_not_mem _ _ _ fun mem => not_mem_headerRange (nbytes w.field.type) mem head]
    exact value

theorem unpack_value : ofBuffer (nbits w.field.type) (w.pack lib buffer m) (body buffer 0) =
    w.field.bits.value := by
  rw [pack]
  split
  · exact ofBuffer_toBuffer _ _ _
  · refine (ofBuffer_congr fun a mem => toBuffer_of_not_mem _ _ _ (not_mem_mask mem)).trans ?_
    exact ofBuffer_toBuffer _ _ _

theorem unpack_mask (fuzzy : w.field.exact = false) :
    ofBuffer (nbits w.field.type) (w.pack lib buffer m) (body buffer (nbytes w.field.type)) =
      w.field.bits.mask := by
  simp only [pack, fuzzy, Bool.false_eq_true, if_false]
  exact ofBuffer_toBuffer _ _ _

include law in
theorem unpack_pack (told : w.tlv.hasMask = !w.field.exact) (r : FluidOXMAdapter)
    (same : r.field.type = w.field.type) :
    (r.unpack lib buffer (w.pack lib buffer m)).field = w.field := by
  obtain ⟨_, t, _⟩ := r
  obtain rfl : t = w.field.type := same
  simp only [unpack, unpack_header law, unpack_value, told]
  cases exact : w.field.exact with
  | true =>
      have bits := MaskedBits.eq_exactly (b := w.field.bits) exact
      rw [if_neg (by simp), Field.exactly, ← bits]
  | false =>
      rw [if_pos (by simp), unpack_mask _ _ _ exact]
      congr 1
      exact MaskedBits.ext w.field.bits.masked rfl

end FluidOXMAdapter

/-- A field is read as it was packed, at any width, and bytes that are read and written back are
the same number cut to the width. -/
theorem FluidOXMAdapter.roundTrips {lib : Libfluid} (law : lib.WritesHeader) :
    (∀ (f : Field) (w r : FluidOXMAdapter) (buffer : Address) (m : Memory),
      ofField f = .ok w → r.field.type = f.type →
        (r.unpack lib buffer (w.pack lib buffer m)).field = f) ∧
    ∀ (n : Nat) (m m' : Memory) (buffer to_ : Address),
      number (toBuffer (ofBuffer n m buffer) to_ m') to_ (numBlocks n) =
        number m buffer (numBlocks n) % 2 ^ n := by
  refine ⟨fun f w r buffer m made same => ?_, number_toBuffer_ofBuffer⟩
  rw [ofField] at made
  split at made
  · cases made
    exact unpack_pack law _ buffer m rfl r same
  · cases made

end

/-! ## Libfluid as it is -/

namespace Libfluid

/-- The header as one number of 32 bits in network order. -/
def wire : Libfluid where
  pack tlv buffer m :=
    toBuffer (tlv.class_ ++ (tlv.field ++ (BitVec.ofBool tlv.hasMask ++ tlv.length))) buffer m
  unpack buffer m :=
    let header := ofBuffer 32 m buffer
    { class_ := header.extractLsb' 16 16
      field := header.extractLsb' 9 7
      hasMask := header.getLsbD 8
      length := header.extractLsb' 0 8 }

theorem wire_writesHeader : wire.WritesHeader where
  pack_of_not_mem tlv buffer m a outside := by
    refine toBuffer_of_not_mem _ _ _ fun mem => outside ?_
    obtain ⟨k, bound, rfl⟩ := mem_writeRange.mp mem
    exact List.mem_map.mpr ⟨k, List.mem_range.mpr bound, rfl⟩
  unpack_congr buffer m m' agree := by
    have header : ofBuffer 32 m buffer = ofBuffer 32 m' buffer := by
      refine ofBuffer_congr fun a mem => agree a ?_
      obtain ⟨k, bound, rfl⟩ := mem_writeRange.mp mem
      exact List.mem_map.mpr ⟨k, List.mem_range.mpr bound, rfl⟩
    simp only [wire, header]
  unpack_pack tlv buffer m := by
    have header := ofBuffer_toBuffer
      (tlv.class_ ++ (tlv.field ++ (BitVec.ofBool tlv.hasMask ++ tlv.length))) buffer m
    have hasMask : (tlv.class_ ++ (tlv.field ++ (BitVec.ofBool tlv.hasMask ++ tlv.length))).getLsbD 8 =
        tlv.hasMask := by
      rw [BitVec.getLsbD_append, BitVec.getLsbD_append, BitVec.getLsbD_append]
      simp
    simp only [wire, header]
    refine OXMTLV.ext ?_ ?_ hasMask ?_
    · exact BitVec.extractLsb'_append_eq_left
    · exact (BitVec.extractLsb'_append_eq_of_add_le (by omega)).trans BitVec.extractLsb'_append_eq_left
    · exact (BitVec.extractLsb'_append_eq_of_add_le (by omega)).trans
        ((BitVec.extractLsb'_append_eq_of_add_le (by omega)).trans BitVec.extractLsb'_append_eq_right)

end Libfluid

open scoped Drunos.Oxm.OpenflowBasic in
/-- Of an address only the network is told; the reader had an exact field. -/
theorem FluidOXMAdapter.roundTrips_network :
    let f : Field := ⟨ipv4Src, .read 0x0a010203#32 0xffff0000#32⟩
    let w : FluidOXMAdapter := ⟨⟨OPENFLOW_BASIC, 11, true, 8⟩, f⟩
    let r : FluidOXMAdapter := ⟨⟨OPENFLOW_BASIC, 11, false, 4⟩, .exactly ipv4Src 0xc0a80001#32⟩
    f.Fits ∧ (r.unpack .wire (.frame 0) (w.pack .wire (.frame 0) fun _ => 0xff)).field = f :=
  ⟨by decide, (roundTrips Libfluid.wire_writesHeader).1 _ _ _ _ _ rfl rfl⟩

end Drunos.Driver
