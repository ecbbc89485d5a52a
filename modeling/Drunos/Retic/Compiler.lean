/-
# Drunos.Retic.Compiler — from policies to diagrams

`fdd_compiler.cc`. The composition of two nodes goes on with its arguments swapped
when they are in the wrong order, so on fields that no order relates it goes on
for ever: `parallelComposition` and what is built on it return `none` there, and
are otherwise the functions of the source, equation by equation.
-/
import Drunos.Retic.Fdd

namespace Drunos.Retic

open Drunos.Oxm

set_option autoImplicit false

variable [OxmTypes] {T : Type} [Inhabited T]

/-- `ns << 16 | id`, computed as an `int` and widened to 64 bits. -/
def typeId (t : OxmType) : BitVec 64 :=
  (t.ns.setWidth 32 <<< 16 ||| t.id.setWidth 32).signExtend 64

/-- `compare_types`: the difference of two ids, cut to an `int`. -/
def compareTypes (lhs rhs : OxmType) : Int := ((typeId rhs - typeId lhs).setWidth 32).toInt

/-! ## Parallel composition -/

def Diagram.parallelComposition : Diagram T → Diagram T → Option (Diagram T)
  | .leaf lhs, .leaf rhs =>
      some (.leaf
        { sets := lhs.sets ++ rhs.sets
          flowSettings := lhs.flowSettings.inter rhs.flowSettings
          mapleTree := default })
  | .node field pos neg, .leaf rhs => do
      let positive ← pos |>.parallelComposition (.leaf rhs)
      let negative ← neg |>.parallelComposition (.leaf rhs)
      return .node field positive negative
  | .leaf lhs, .node field pos neg => node field pos neg |>.parallelComposition (.leaf lhs)
  | .node field pos neg, .node field' pos' neg' =>
      if field = field' then do
        let positive ← pos |>.parallelComposition pos'
        let negative ← neg |>.parallelComposition neg'
        return .node field positive negative
      else if field.type = field'.type then
        if field.bits.value.toNat < field'.bits.value.toNat then do
          let positive ← pos |>.parallelComposition neg'
          let negative ← neg |>.parallelComposition (.node field' pos' neg')
          return .node field positive negative
        else node field' pos' neg' |>.parallelComposition (.node field pos neg)
      else if compareTypes field.type field'.type > 0 then do
        let positive ← pos |>.parallelComposition (.node field' pos' neg')
        let negative ← neg |>.parallelComposition (.node field' pos' neg')
        return .node field positive negative
      else node field' pos' neg' |>.parallelComposition (.node field pos neg)
partial_fixpoint

export Diagram (parallelComposition)

/-! ## Sequential composition -/

/-- `field_set_union`: the fields of `rhs` go over those of `lhs`. -/
def fieldSetUnion (lhs rhs : FieldSet) : FieldSet := rhs.fields.foldl FieldSet.modify lhs

def seqActions : ActionUnit → ActionUnit → ActionUnit
  | .mk pred (some body) none, two =>
      .mk pred (some body)
        (some (.mk (fieldSetUnion ∅ two.predActions) two.body two.postActions))
  | .mk pred (some body) (some post), two => .mk pred (some body) (some (seqActions post two))
  | .mk pred none _, two =>
      .mk (fieldSetUnion pred two.predActions) two.body two.postActions

/-- `left_action_applier`: tests of a field the action sets are decided. -/
def leftActionApplier (action : ActionUnit) : Diagram T → Diagram T
  | .leaf l =>
      .leaf
        { sets := l.sets.map (seqActions action)
          flowSettings := l.flowSettings
          mapleTree := default }
  | .node field pos neg =>
      match action.predActions.find field.type with
      | none => .node field (leftActionApplier action pos) (leftActionApplier action neg)
      | some bits =>
          if bits = field.bits then leftActionApplier action pos else leftActionApplier action neg

/-- A leaf without actions. -/
def Leaf.stop : Leaf T := { mapleTree := default }

/-- `applier_true`: the diagram where the field is there, and nothing where not. -/
def restrictTrue (f : Field) : Diagram T → Diagram T
  | .leaf l => .node f (.leaf l) (.leaf .stop)
  | .node field pos neg =>
      if field = f then .node f pos (.leaf .stop)
      else if field.type = f.type then restrictTrue f neg
      else if compareTypes f.type field.type > 0 then .node f (.node field pos neg) (.leaf .stop)
      else .node field (restrictTrue f pos) (restrictTrue f neg)

/-- `applier_false`: the diagram where the field is not there. -/
def restrictFalse (f : Field) : Diagram T → Diagram T
  | .leaf l => .node f (.leaf .stop) (.leaf l)
  | .node field pos neg =>
      if field = f then .node f (.leaf .stop) neg
      else if field.type = f.type then
        if field.bits.value.toNat < f.bits.value.toNat then .node field pos (restrictFalse f neg)
        else .node f (.leaf .stop) (.node field pos neg)
      else if compareTypes f.type field.type > 0 then .node f (.leaf .stop) (.node field pos neg)
      else .node field (restrictFalse f pos) (restrictFalse f neg)

def sequentialComposition : Diagram T → Diagram T → Option (Diagram T)
  | .leaf lhs, rhs =>
      if lhs.sets.isEmpty then some (.leaf .stop)
      else
        lhs.sets.foldlM (fun result action => parallelComposition result (leftActionApplier action rhs))
          (.leaf { flowSettings := lhs.flowSettings, mapleTree := default })
  | .node field pos neg, rhs => do
      let one ← sequentialComposition pos rhs
      let two ← sequentialComposition neg rhs
      parallelComposition (restrictTrue field one) (restrictFalse field two)

/-! ## Negation -/

def negationComposition : Diagram T → Diagram T
  | .leaf l =>
      .leaf
        { sets := if l.sets.isEmpty then [.ofActions ∅] else []
          flowSettings := l.flowSettings
          mapleTree := default }
  | .node field pos neg => .node field (negationComposition pos) (negationComposition neg)

/-! ## The compiler -/

/-- A leaf with one action unit. -/
def Leaf.single (unit : ActionUnit) (settings : FlowSettings := {}) : Leaf T :=
  { sets := [unit], flowSettings := settings, mapleTree := default }

def compile : Policy → Option (Diagram T)
  | .stop => some (.leaf .stop)
  | .id => some (.leaf (.single (.ofActions ∅)))
  | .filter field => some (.node field (.leaf (.single (.ofActions ∅))) (.leaf .stop))
  | .modify field => some (.leaf (.single (.ofActions (.ofField field))))
  | .flowSettings flow => some (.leaf (.single (.ofActions ∅) flow))
  | .negation pol => do
      let d ← compile pol
      return negationComposition d
  | .packetFunction id function => some (.leaf (.single (.mk ∅ (some ⟨id, function⟩) none)))
  | .sequential one two => do
      let d1 ← compile one
      let d2 ← compile two
      sequentialComposition d1 d2
  | .parallel one two => do
      let d1 ← compile one
      let d2 ← compile two
      parallelComposition d1 d2

end Drunos.Retic
