/-
# Drunos.Oxm.Field — field types, masks, fields and packets

`oxm::type` is compared by namespace and id only; each pair is defined once, so
the width of a type is a function of it (`nbits`). A field is a type with a
masked value of that width, and a packet that has every field is one bit string
for each type. Values of two fields are only ever compared or combined at one
type, so the model has no counterpart of `bad_operands`.

`mask_holder` refuses masks of some bits only where the type is not maskable. A `Mask` and
a `Field` may have any bits, and `Fits` says which of them can be built: what is shown of
all fields is shown of these, and an example is made of these only. No operator leads out
of them (`Allowed.and`, `Allowed.or`, `Allowed.not`), so `bad_mask` is thrown where a mask
is made of bits, and nowhere else.
-/
import Drunos.Theory.MaskedBits
import Mathlib.Logic.Function.Basic

namespace Drunos.Oxm

open Drunos.Theory

set_option autoImplicit false

structure OxmType where
  ns : BitVec 16
  id : BitVec 7
  deriving DecidableEq

/-- The defined field types: how many bits each has, and whether some of them may be masked. -/
class OxmTypes where
  nbits : OxmType → Nat
  maskable : OxmType → Bool

export OxmTypes (nbits maskable)

variable [OxmTypes]

/-- The check of `mask_holder`, which throws `bad_mask` for other bits. -/
def Allowed (t : OxmType) (bits : BitVec (nbits t)) : Prop :=
  maskable t = true ∨ bits = BitVec.allOnes _ ∨ bits = 0#_

instance (t : OxmType) (bits : BitVec (nbits t)) : Decidable (Allowed t bits) :=
  inferInstanceAs (Decidable (_ ∨ _))

namespace Allowed

variable {t : OxmType} {a b : BitVec (nbits t)}

theorem and (left : Allowed t a) (right : Allowed t b) : Allowed t (a &&& b) := by
  rcases left with maskable | rfl | rfl
  · exact .inl maskable
  · rwa [BitVec.allOnes_and]
  · exact .inr (.inr BitVec.zero_and)

theorem or (left : Allowed t a) (right : Allowed t b) : Allowed t (a ||| b) := by
  rcases left with maskable | rfl | rfl
  · exact .inl maskable
  · exact .inr (.inl BitVec.allOnes_or)
  · rwa [BitVec.zero_or]

theorem not (allowed : Allowed t a) : Allowed t (~~~a) := by
  rcases allowed with maskable | rfl | rfl
  · exact .inl maskable
  · exact .inr (.inr BitVec.not_allOnes)
  · exact .inr (.inl BitVec.not_zero)

end Allowed

/-- `oxm::mask<>`. -/
structure Mask where
  type : OxmType
  bits : BitVec (nbits type)
  deriving DecidableEq

/-- `oxm::field<>`. -/
structure Field where
  type : OxmType
  bits : MaskedBits (nbits type)
  deriving DecidableEq

/-- The mask can be built. -/
def Mask.Fits (m : Mask) : Prop := Allowed m.type m.bits

instance (m : Mask) : Decidable m.Fits := inferInstanceAs (Decidable (Allowed _ _))

namespace Field

/-- The field can be built. -/
def Fits (f : Field) : Prop := Allowed f.type f.bits.mask

instance (f : Field) : Decidable f.Fits := inferInstanceAs (Decidable (Allowed _ _))

def mask (f : Field) : Mask := ⟨f.type, f.bits.mask⟩

def exact (f : Field) : Bool := f.bits.exact

def wildcard (f : Field) : Bool := f.bits.wildcard

/-- `mask & value`. -/
def ofMask (m : Mask) (v : BitVec (nbits m.type)) : Field := ⟨m.type, .read v m.bits⟩

/-- `type == value`. -/
def exactly (t : OxmType) (v : BitVec (nbits t)) : Field := ⟨t, .exactly v⟩

@[simp] theorem exactly_exact (t : OxmType) (v : BitVec (nbits t)) : (exactly t v).exact = true := by
  simp [exactly, exact, MaskedBits.exactly, MaskedBits.exact]

theorem exactly_fits (t : OxmType) (v : BitVec (nbits t)) : (exactly t v).Fits := .inr (.inl rfl)

end Field

/-- A packet that has a value for every type. -/
abbrev Packet := ∀ t : OxmType, BitVec (nbits t)

namespace Packet

def load (x : Packet) (m : Mask) : Field := .ofMask m (x m.type)

def test (x : Packet) (need : Field) : Bool := need.bits.Matches (x need.type)

def modify (x : Packet) (patch : Field) : Packet :=
  Function.update x patch.type (patch.bits.write (x patch.type))

theorem test_iff {x : Packet} {f : Field} : x.test f = true ↔ f.bits.Matches (x f.type) := by
  simp [test]

/-- Of two exact fields of one type a packet has one at most. -/
theorem test_exact_unique {x : Packet} {f g : Field} (exact : f.exact = true)
    (exact' : g.exact = true) (same : f.type = g.type) (left : x.test f = true)
    (right : x.test g = true) : f = g := by
  obtain ⟨t, b⟩ := f
  obtain ⟨t', b'⟩ := g
  obtain rfl : t = t' := same
  have known : x t = b.value := (MaskedBits.exact_matches exact).mp (test_iff.mp left)
  have known' : x t = b'.value := (MaskedBits.exact_matches exact').mp (test_iff.mp right)
  have all : b = .exactly b.value := MaskedBits.eq_exactly exact
  have all' : b' = .exactly b'.value := MaskedBits.eq_exactly exact'
  rw [all, all', ← known, ← known']

/-- Of two different exact fields of one type, a packet with the one lacks the
other. -/
theorem test_exact_ne {x : Packet} {f g : Field} (exact : f.exact = true)
    (exact' : g.exact = true) (same : f.type = g.type) (ne : f ≠ g) (has : x.test f = true) :
    x.test g = false := by
  by_contra other
  exact ne (test_exact_unique exact exact' same has (by simpa using other))

end Packet

end Drunos.Oxm
