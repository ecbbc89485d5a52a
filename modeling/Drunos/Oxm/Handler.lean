/-
# Drunos.Oxm.Handler — programs that read and modify a packet

A packet function of retic and a policy of maple are programs given a `Packet&`.
What such a program does with a packet is to load bits of a field, to test a
field and to modify one; what it does next depends on the packet only through the
answers. A deterministic and terminating program is therefore a tree of these
calls with its results at the leaves.
-/
import Drunos.Oxm.FieldSet

namespace Drunos.Oxm

open Drunos.Theory

set_option autoImplicit false

variable [OxmTypes]

/-- The interface `Packet`. With `none` an `out_of_range` is thrown. -/
class PacketView (V : Type) where
  load : V → (m : Mask) → Option (MaskedBits (nbits m.type))
  test : V → Field → Option Bool
  modify : V → Field → Option V

/-- A full packet has every field. -/
instance : PacketView Packet where
  load x m := some (.read (x m.type) m.bits)
  test x need := some (x.test need)
  modify x patch := some (x.modify patch)

inductive Handler (R : Type) where
  | ret (result : R)
  | load (mask : Mask) (next : BitVec (nbits mask.type) → Handler R)
  | test (need : Field) (next : Bool → Handler R)
  | modify (patch : Field) (next : Handler R)

namespace Handler

variable {R : Type}

/-- The result of a program on a packet, and the packet as it leaves it. -/
def run : Handler R → Packet → R × Packet
  | .ret r, x => (r, x)
  | .load m next, x => run (next (x.load m).bits.value) x
  | .test f next, x => run (next (x.test f)) x
  | .modify f next, x => run next (x.modify f)

/-- The program loads and tests whole fields. -/
def WholeFields : Handler R → Prop
  | .ret _ => True
  | .load m next => m.bits = BitVec.allOnes _ ∧ ∀ v, WholeFields (next v)
  | .test need next => need.exact = true ∧ ∀ b, WholeFields (next b)
  | .modify _ next => WholeFields next

/-- The program asks for and puts in what can be built. -/
def Fits : Handler R → Prop
  | .ret _ => True
  | .load m next => m.Fits ∧ ∀ v, Fits (next v)
  | .test need next => need.Fits ∧ ∀ b, Fits (next b)
  | .modify patch next => patch.Fits ∧ Fits next

/-- The program loads and tests fields of these types only. -/
def Reads (types : OxmType → Prop) : Handler R → Prop
  | .ret _ => True
  | .load m next => types m.type ∧ ∀ v, Reads types (next v)
  | .test need next => types need.type ∧ ∀ b, Reads types (next b)
  | .modify _ next => Reads types next

/-- The program puts whole fields of the type into packets, or wildcards: for a type
that is not maskable there are no others. -/
def Unmasked (t : OxmType) : Handler R → Prop
  | .ret _ => True
  | .load _ next => ∀ v, Unmasked t (next v)
  | .test _ next => ∀ b, Unmasked t (next b)
  | .modify patch next =>
      (patch.type = t → patch.exact = true ∨ patch.wildcard = true) ∧ Unmasked t next

end Handler

end Drunos.Oxm
