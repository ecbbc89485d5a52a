/-
# Drunos.Retic.Fdd — decision diagrams

The diagrams of `fdd.hh`. A node tests a field; a leaf has the actions to take,
and for the actions that are packet functions a tree of what the functions did on
earlier packets (`mapleTree`). What such a tree is, is a parameter here: the
compiler and the translator only ever put an empty one (`default`) there.
-/
import Drunos.Retic.Policy

namespace Drunos.Retic

open Drunos.Oxm

set_option autoImplicit false

variable [OxmTypes]

/-- `fdd::action_unit`: actions, then a packet function, then what is to follow it. -/
inductive ActionUnit where
  | mk (predActions : FieldSet) (body : Option PacketFunction) (postActions : Option ActionUnit)

namespace ActionUnit

def predActions : ActionUnit → FieldSet
  | mk pred _ _ => pred

def body : ActionUnit → Option PacketFunction
  | mk _ body _ => body

def postActions : ActionUnit → Option ActionUnit
  | mk _ _ post => post

/-- The unit that only puts in a set of fields. -/
def ofActions (acts : FieldSet) : ActionUnit := mk acts none none

/-- What a unit makes of a packet: its actions, then its function, then what is to
follow the function. -/
def outputs : ActionUnit → Packet → Multiset Packet
  | mk pred none _, x => {pred.apply x}
  | mk pred (some f) none, x => Policy.outputs.outputsOf f.function (pred.apply x)
  | mk pred (some f) (some post), x =>
      (Policy.outputs.outputsOf f.function (pred.apply x)).bind (outputs post)

end ActionUnit

/-- `fdd::leaf`. -/
structure Leaf (T : Type) where
  sets : List ActionUnit := []
  flowSettings : FlowSettings := {}
  mapleTree : T
  prioDown : Nat := 0
  prioUp : Nat := 0

/-- `fdd::diagram`. -/
inductive Diagram (T : Type) where
  | leaf (l : Leaf T)
  | node (field : Field) (positive negative : Diagram T)

variable {T : Type}

namespace Diagram

/-- The leaf of a packet (`PlainTraverser`). -/
def leafAt (x : Packet) : Diagram T → Leaf T
  | leaf l => l
  | node f pos neg => if x.test f then leafAt x pos else leafAt x neg

/-- `P` holds of the fields of all nodes. -/
def AllFields (P : Field → Prop) : Diagram T → Prop
  | leaf _ => True
  | node f pos neg => P f ∧ AllFields P pos ∧ AllFields P neg

/-- `P` holds of all leaves. -/
def AllLeaves (P : Leaf T → Prop) : Diagram T → Prop
  | leaf l => P l
  | node _ pos neg => AllLeaves P pos ∧ AllLeaves P neg

/-- `Q` holds of the action units of all leaves. -/
def AllUnits (Q : ActionUnit → Prop) (d : Diagram T) : Prop :=
  d.AllLeaves fun l => ∀ unit ∈ l.sets, Q unit

/-- The action units of the leaf of a packet. -/
def unitsAt (d : Diagram T) (x : Packet) : Multiset ActionUnit := (d.leafAt x).sets

/-- What the leaf of a packet makes of it. -/
def outputs (d : Diagram T) (x : Packet) : Multiset Packet :=
  (d.unitsAt x).bind fun unit => unit.outputs x

def size : Diagram T → Nat
  | leaf _ => 1
  | node _ pos neg => size pos + size neg + 1

@[simp] theorem leafAt_leaf (x : Packet) (l : Leaf T) : (leaf l).leafAt x = l := rfl

theorem leafAt_node (x : Packet) (f : Field) (pos neg : Diagram T) :
    (node f pos neg).leafAt x = if x.test f then pos.leafAt x else neg.leafAt x := rfl

theorem unitsAt_node (x : Packet) (f : Field) (pos neg : Diagram T) :
    (node f pos neg).unitsAt x = if x.test f then pos.unitsAt x else neg.unitsAt x := by
  rw [unitsAt, leafAt_node]
  split <;> rfl

theorem unitsAt_pos {x : Packet} {f : Field} (pos neg : Diagram T) (has : x.test f = true) :
    (node f pos neg).unitsAt x = pos.unitsAt x := by
  rw [unitsAt_node, if_pos has]

theorem unitsAt_neg {x : Packet} {f : Field} (pos neg : Diagram T) (lacks : x.test f = false) :
    (node f pos neg).unitsAt x = neg.unitsAt x := by
  rw [unitsAt_node, if_neg (by simp [lacks])]

theorem AllLeaves.leafAt {P : Leaf T → Prop} {d : Diagram T} (x : Packet) (all : d.AllLeaves P) :
    P (d.leafAt x) := by
  induction d with
  | leaf l => exact all
  | node f pos neg ihPos ihNeg =>
      rw [leafAt_node]
      split
      · exact ihPos all.1
      · exact ihNeg all.2

theorem AllLeaves.mono {P Q : Leaf T → Prop} (weaker : ∀ l, P l → Q l) {d : Diagram T}
    (all : d.AllLeaves P) : d.AllLeaves Q := by
  induction d with
  | leaf l => exact weaker l all
  | node f pos neg ihPos ihNeg => exact ⟨ihPos all.1, ihNeg all.2⟩

end Diagram

end Drunos.Retic
