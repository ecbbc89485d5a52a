/-
# Drunos.Retic.Slips — what masks cost a sequential composition

The compositions take two different tests of one type for exclusive: where a packet has passed one
of them, they go on with the negative branch of the other. With partial masks a packet may pass both,
and an action that sets other bits than a test asks for may make it pass all the same
(`left_action_applier` says "have this type, but other value"). Each such decision is a slip: it loses
the units of the positive branch and gains those of the negative one.

There are no other errors. At the leaf of a packet a composition has the units it should have, but
for those lost and gained (`sequentialComposition_accounts`), so its outputs are right if and only if
the slips make up for each other. A packet that passes one test of each type at most, with actions
that decide the tests of the types they set, meets no slips (`sequentialSlips_nil`); and with tests
or actions of another kind some composition loses the packet: `sequentialComposition_outputs_iff`.
-/
import Drunos.Retic.Swaps
import Drunos.Retic.CompilerMeaning
import Mathlib.Tactic.Abel

namespace Drunos.Retic

open Drunos.Oxm Drunos.Theory

set_option autoImplicit false

section

variable [OxmTypes] {T : Type} [Inhabited T]

/-! ## Accounts -/

/-- A decision for the negative branch of a test that the packet passes. -/
structure Slip where
  lost : Multiset ActionUnit
  gained : Multiset ActionUnit

def lost (slips : List Slip) : Multiset ActionUnit := (slips.map Slip.lost).sum

def gained (slips : List Slip) : Multiset ActionUnit := (slips.map Slip.gained).sum

/-- The decision for the negative branch is a slip if the test is passed. -/
def slipIf (passed : Bool) (pos neg : Multiset ActionUnit) : List Slip :=
  if passed then [⟨pos, neg⟩] else []

/-- The units there are, in place of those due. -/
def Accounts (got due : Multiset ActionUnit) (slips : List Slip) : Prop :=
  got + lost slips = due + gained slips

theorem Accounts.refl (units : Multiset ActionUnit) : Accounts units units [] := rfl

theorem Accounts.of_eq {got due : Multiset ActionUnit} (same : got = due) : Accounts got due [] :=
  same ▸ .refl got

theorem lost_append (s t : List Slip) : lost (s ++ t) = lost s + lost t := by simp [lost]

theorem gained_append (s t : List Slip) : gained (s ++ t) = gained s + gained t := by simp [gained]

/-- What stands for `b`, which stands for `c`, with the slips of both. -/
theorem Accounts.trans {a b c : Multiset ActionUnit} {s t : List Slip} (later : Accounts a b s)
    (first : Accounts b c t) : Accounts a c (t ++ s) := by
  calc a + lost (t ++ s) = (a + lost s) + lost t := by rw [lost_append]; abel
    _ = (b + lost t) + gained s := by rw [later]; abel
    _ = c + gained (t ++ s) := by rw [first, gained_append]; abel

theorem Accounts.add {a b a' b' : Multiset ActionUnit} {s t : List Slip} (left : Accounts a b s)
    (right : Accounts a' b' t) : Accounts (a + a') (b + b') (s ++ t) := by
  calc a + a' + lost (s ++ t) = (a + lost s) + (a' + lost t) := by rw [lost_append]; abel
    _ = b + b' + gained (s ++ t) := by rw [left, right, gained_append]; abel

/-- The negative branch is taken whether the test is passed or not. -/
theorem Accounts.slip (passed : Bool) (pos neg : Multiset ActionUnit) :
    Accounts neg (if passed then pos else neg) (slipIf passed pos neg) := by
  cases passed with
  | true => simp [Accounts, slipIf, lost, gained, add_comm]
  | false => exact .refl neg

/-! ## Restriction -/

/-- The slips of `applier_true` for a packet that has the field. -/
def trueSlips (f : Field) (x : Packet) : Diagram T → List Slip
  | .leaf _ => []
  | .node g pos neg =>
      if g = f then []
      else if g.type = f.type then
        slipIf (x.test g) (pos.unitsAt x) (neg.unitsAt x) ++ trueSlips f x neg
      else if compareTypes f.type g.type > 0 then []
      else if x.test g then trueSlips f x pos else trueSlips f x neg

/-- The slips of `applier_false` for a packet that has the field: a branch is left that asks for
another field of the type. -/
def falseSlips (f : Field) (x : Packet) : Diagram T → List Slip
  | .leaf _ => []
  | .node g pos neg =>
      if g = f then []
      else if g.type = f.type then
        if g.bits.value.toNat < f.bits.value.toNat then
          if x.test g then [⟨0, pos.unitsAt x⟩] else falseSlips f x neg
        else []
      else if compareTypes f.type g.type > 0 then []
      else if x.test g then falseSlips f x pos else falseSlips f x neg

theorem restrictTrue_lacks {f : Field} {x : Packet} (lacks : x.test f = false) (d : Diagram T) :
    (restrictTrue f d).unitsAt x = 0 := by
  induction d with
  | leaf l => rw [restrictTrue, Diagram.unitsAt_neg _ _ lacks, unitsAt_stop]
  | node g pos neg ihPos ihNeg =>
      rw [restrictTrue]
      split_ifs
      · rw [Diagram.unitsAt_neg _ _ lacks, unitsAt_stop]
      · exact ihNeg
      · rw [Diagram.unitsAt_neg _ _ lacks, unitsAt_stop]
      · rw [Diagram.unitsAt_node, ihPos, ihNeg, ite_self]

theorem restrictFalse_lacks {f : Field} {x : Packet} (lacks : x.test f = false) (d : Diagram T) :
    (restrictFalse f d).unitsAt x = d.unitsAt x := by
  induction d with
  | leaf l => rw [restrictFalse, Diagram.unitsAt_neg _ _ lacks]
  | node g pos neg ihPos ihNeg =>
      rw [restrictFalse]
      split_ifs with same
      · subst same
        rw [Diagram.unitsAt_neg _ _ lacks, Diagram.unitsAt_neg _ _ lacks]
      · rw [Diagram.unitsAt_node, Diagram.unitsAt_node, ihNeg]
      · rw [Diagram.unitsAt_neg _ _ lacks]
      · rw [Diagram.unitsAt_neg _ _ lacks]
      · rw [Diagram.unitsAt_node, Diagram.unitsAt_node, ihPos, ihNeg]

theorem restrictTrue_accounts {f : Field} {x : Packet} (has : x.test f = true) (d : Diagram T) :
    Accounts ((restrictTrue f d).unitsAt x) (d.unitsAt x) (trueSlips f x d) := by
  induction d with
  | leaf l => exact .of_eq (by rw [restrictTrue, Diagram.unitsAt_pos _ _ has])
  | node g pos neg ihPos ihNeg =>
      rw [restrictTrue, trueSlips]
      split_ifs with same type before
      · subst same
        exact .of_eq (by rw [Diagram.unitsAt_pos _ _ has, Diagram.unitsAt_pos _ _ has])
      · rw [Diagram.unitsAt_node]
        exact ihNeg.trans (.slip _ _ _)
      · exact .of_eq (by rw [Diagram.unitsAt_pos _ _ has])
      · rename_i passed
        rw [Diagram.unitsAt_pos _ _ passed, Diagram.unitsAt_pos _ _ passed]
        exact ihPos
      · rename_i fails
        rw [Bool.not_eq_true] at fails
        rw [Diagram.unitsAt_neg _ _ fails, Diagram.unitsAt_neg _ _ fails]
        exact ihNeg

theorem restrictFalse_accounts {f : Field} {x : Packet} (has : x.test f = true) (d : Diagram T) :
    Accounts ((restrictFalse f d).unitsAt x) 0 (falseSlips f x d) := by
  induction d with
  | leaf l => exact .of_eq (by rw [restrictFalse, Diagram.unitsAt_pos _ _ has, unitsAt_stop])
  | node g pos neg ihPos ihNeg =>
      rw [restrictFalse, falseSlips]
      split_ifs with same type value passed before passed
      · exact .of_eq (by rw [Diagram.unitsAt_pos _ _ has, unitsAt_stop])
      · rw [Diagram.unitsAt_pos _ _ passed]
        simp [Accounts, lost, gained]
      · rw [Bool.not_eq_true] at passed
        rw [Diagram.unitsAt_neg _ _ passed]
        exact ihNeg
      · exact .of_eq (by rw [Diagram.unitsAt_pos _ _ has, unitsAt_stop])
      · exact .of_eq (by rw [Diagram.unitsAt_pos _ _ has, unitsAt_stop])
      · rw [Diagram.unitsAt_pos _ _ passed]
        exact ihPos
      · rw [Bool.not_eq_true] at passed
        rw [Diagram.unitsAt_neg _ _ passed]
        exact ihNeg

/-! ## Parallel composition -/

/-- The slips where two diagrams are put over each other: of two different tests of one type that the
packet passes, the one with the greater value is taken to fail. -/
def parallelSlips (x : Packet) : Diagram T → Diagram T → List Slip
  | .leaf _, .leaf _ => []
  | .node f pos neg, .leaf r =>
      if x.test f then parallelSlips x pos (.leaf r) else parallelSlips x neg (.leaf r)
  | .leaf l, .node f pos neg => parallelSlips x (.node f pos neg) (.leaf l)
  | .node f pos neg, .node g pos' neg' =>
      if f = g then if x.test f then parallelSlips x pos pos' else parallelSlips x neg neg'
      else if Before f g then
        if x.test f then
          if f.type = g.type then
            slipIf (x.test g) (pos'.unitsAt x) (neg'.unitsAt x) ++ parallelSlips x pos neg'
          else parallelSlips x pos (.node g pos' neg')
        else parallelSlips x neg (.node g pos' neg')
      else if Before g f then parallelSlips x (.node g pos' neg') (.node f pos neg)
      else []
termination_by lhs rhs => rank (lhs, rhs)
decreasing_by
  · exact rank_lt_of_size (by simp only [Diagram.size]; omega)
  · exact rank_lt_of_size (by simp only [Diagram.size]; omega)
  · simp only [rank, swaps]; omega
  · exact rank_lt_of_size (by simp only [Diagram.size]; omega)
  · exact rank_lt_of_size (by simp only [Diagram.size]; omega)
  · exact rank_lt_of_size (by simp only [Diagram.size]; omega)
  · exact rank_lt_of_size (by simp only [Diagram.size]; omega)
  · exact rank_lt_of_size (by simp only [Diagram.size]; omega)
  · simp only [rank, swaps, *, if_true, if_false]; omega

omit [Inhabited T] in
/-- Tests that are swapped, or would be for ever, have the slips of the swapped call. -/
theorem parallelSlips_swap {x : Packet} {f g : Field} (ne : f ≠ g) (not : ¬Before f g)
    (pos neg pos' neg' : Diagram T) :
    parallelSlips x (.node f pos neg) (.node g pos' neg') =
      parallelSlips x (.node g pos' neg') (.node f pos neg) := by
  rw [parallelSlips, if_neg ne, if_neg not]
  by_cases after : Before g f
  · rw [if_pos after]
  · rw [if_neg after, parallelSlips, if_neg ne.symm, if_neg after, if_neg not]

/-- **At the leaf of a packet a parallel composition has the units of both leaves, but for the
slips.** -/
theorem parallelComposition_accounts {lhs rhs d : Diagram T}
    (result : parallelComposition lhs rhs = some d) (x : Packet) :
    Accounts (d.unitsAt x) (lhs.unitsAt x + rhs.unitsAt x) (parallelSlips x lhs rhs) := by
  replace result := parallelComposition_result result
  induction result with
  | leaves l r =>
      rw [parallelSlips]
      exact .refl _
  | @nodeLeaf f _ _ _ _ _ _ _ ihP ihN =>
      rw [parallelSlips, Diagram.unitsAt_node, Diagram.unitsAt_node]
      split_ifs
      · exact ihP
      · exact ihN
  | leafNode _ ih =>
      rw [parallelSlips, add_comm]
      exact ih
  | same _ _ ihP ihN =>
      rw [parallelSlips, if_pos rfl, Diagram.unitsAt_node, Diagram.unitsAt_node, Diagram.unitsAt_node]
      split_ifs
      · exact ihP
      · exact ihN
  | @before f g pos neg pos' neg' _ _ before _ _ ihP ihN =>
      rw [parallelSlips, if_neg before.ne, if_pos before, Diagram.unitsAt_node, Diagram.unitsAt_node x f]
      split_ifs with has type
      · -- the greater value is taken to fail
        rw [if_pos type] at ihP
        rw [Diagram.unitsAt_node x g]
        exact ihP.trans ((Accounts.refl _).add (.slip _ _ _))
      · rwa [if_neg type] at ihP
      · exact ihN
  | after ne not _ ih =>
      rw [parallelSlips_swap ne not, add_comm]
      exact ih

/-! ## Sequential composition -/

/-- The slips of `left_action_applier`: a test is taken to fail of which the action sets other bits
or other values than it asks for, though the packet with the action passes it. -/
def applierSlips (action : ActionUnit) (x : Packet) : Diagram T → List Slip
  | .leaf _ => []
  | .node f pos neg =>
      let y := action.predActions.apply x
      match action.predActions.find f.type with
      | none => if x.test f then applierSlips action x pos else applierSlips action x neg
      | some bits =>
          if bits = f.bits then applierSlips action x pos
          else
            slipIf (y.test f) ((pos.unitsAt y).map (seqActions action))
                ((neg.unitsAt y).map (seqActions action)) ++
              applierSlips action x neg

theorem leftActionApplier_accounts (action : ActionUnit) (x : Packet) (d : Diagram T) :
    Accounts ((leftActionApplier action d).unitsAt x)
      ((d.unitsAt (action.predActions.apply x)).map (seqActions action)) (applierSlips action x d) := by
  induction d with
  | leaf l => exact .refl _
  | node f pos neg ihPos ihNeg =>
      have value := FieldSet.apply_apply action.predActions x f.type
      rw [leftActionApplier, applierSlips]
      cases found : action.predActions.find f.type with
      | none =>
          have absent : action.predActions.entry f.type = none := found
          have unchanged : (action.predActions.apply x).test f = x.test f := by
            rw [Packet.test, Packet.test, value]
            simp [FieldSet.get, absent]
          rw [Diagram.unitsAt_node, Diagram.unitsAt_node, unchanged]
          dsimp only
          split_ifs
          · exact ihPos
          · exact ihNeg
      | some bits =>
          dsimp only
          split_ifs with same
          · -- the packet has the very bits that are asked for
            have passes : (action.predActions.apply x).test f = true := by
              rw [Packet.test_iff, value, FieldSet.get_of_entry found, same]
              exact f.bits.write_matches _
            rw [Diagram.unitsAt_pos _ _ passes]
            exact ihPos
          · rw [Diagram.unitsAt_node, apply_ite (Multiset.map (seqActions action))]
            exact ihNeg.trans (.slip _ _ _)

/-- The slips of the loop over the actions of a leaf. -/
def foldSlips (x : Packet) (rhs : Diagram T) : List ActionUnit → Diagram T → Option (List Slip)
  | [], _ => some []
  | action :: units, result => do
      let next ← parallelComposition result (leftActionApplier action rhs)
      let later ← foldSlips x rhs units next
      return applierSlips action x rhs ++ parallelSlips x result (leftActionApplier action rhs) ++ later

/-- What the leaf of a packet in a sequence should have. -/
def dueUnits (lhs rhs : Diagram T) (x : Packet) : Multiset ActionUnit :=
  (lhs.unitsAt x).bind fun action => (rhs.unitsAt (action.predActions.apply x)).map (seqActions action)

theorem foldSlips_accounts {rhs : Diagram T} (x : Packet) :
    ∀ {units : List ActionUnit} {start d : Diagram T},
      units.foldlM (fun result action => parallelComposition result (leftActionApplier action rhs)) start =
        some d →
      ∃ slips, foldSlips x rhs units start = some slips ∧
        Accounts (d.unitsAt x) (start.unitsAt x + (units : Multiset ActionUnit).bind fun action =>
          (rhs.unitsAt (action.predActions.apply x)).map (seqActions action)) slips
  | [], start, d, eq => by
      obtain rfl := Option.some.inj eq
      exact ⟨[], rfl, .of_eq (by simp)⟩
  | action :: units, start, d, eq => by
      obtain ⟨next, result, rest⟩ := Option.bind_eq_some_iff.mp eq
      obtain ⟨later, found, accounts⟩ := foldSlips_accounts x rest
      have result : parallelComposition start (leftActionApplier action rhs) = some next := result
      refine ⟨applierSlips action x rhs ++ parallelSlips x start (leftActionApplier action rhs) ++ later,
        by rw [foldSlips, result]; simp [found], ?_⟩
      have first : Accounts (next.unitsAt x)
          (start.unitsAt x + (rhs.unitsAt (action.predActions.apply x)).map (seqActions action))
          (applierSlips action x rhs ++ parallelSlips x start (leftActionApplier action rhs)) :=
        (parallelComposition_accounts result x).trans
          ((Accounts.refl _).add (leftActionApplier_accounts action x rhs))
      rw [← Multiset.cons_coe, Multiset.cons_bind, ← add_assoc]
      have all := accounts.trans (first.add (.refl _))
      rwa [List.append_nil] at all

/-- The slips of a sequence for a packet: where its two restricted halves come together, where they
are restricted, and in the half of the packet. -/
def sequentialSlips (x : Packet) : Diagram T → Diagram T → Option (List Slip)
  | .leaf lhs, rhs =>
      if lhs.sets.isEmpty then some []
      else foldSlips x rhs lhs.sets (.leaf { flowSettings := lhs.flowSettings, mapleTree := default })
  | .node field pos neg, rhs => do
      let one ← sequentialComposition pos rhs
      let two ← sequentialComposition neg rhs
      let half ← if x.test field then sequentialSlips x pos rhs else sequentialSlips x neg rhs
      let restricted := if x.test field then trueSlips field x one ++ falseSlips field x two else []
      return half ++ restricted ++ parallelSlips x (restrictTrue field one) (restrictFalse field two)

/-- **At the leaf of a packet a sequential composition has the units it should have, but for the
slips.** -/
theorem sequentialComposition_accounts {rhs : Diagram T} (x : Packet) : ∀ {lhs d : Diagram T},
    sequentialComposition lhs rhs = some d →
      ∃ slips, sequentialSlips x lhs rhs = some slips ∧
        Accounts (d.unitsAt x) (dueUnits lhs rhs x) slips := by
  intro lhs
  induction lhs with
  | leaf l =>
      intro d eq
      rw [sequentialComposition] at eq
      rw [sequentialSlips]
      by_cases nothing : l.sets.isEmpty = true
      · rw [if_pos nothing] at eq ⊢
        obtain rfl := Option.some.inj eq
        refine ⟨[], rfl, .of_eq ?_⟩
        simp [dueUnits, Diagram.unitsAt, List.isEmpty_iff.mp nothing, Leaf.stop]
      · rw [if_neg nothing] at eq ⊢
        obtain ⟨slips, found, accounts⟩ := foldSlips_accounts x eq
        refine ⟨slips, found, ?_⟩
        have start : (Diagram.leaf
            { flowSettings := l.flowSettings, mapleTree := (default : T) }).unitsAt x = 0 := rfl
        rw [start, zero_add] at accounts
        exact accounts
  | node f pos neg ihPos ihNeg =>
      intro d eq
      obtain ⟨one, resultP, rest⟩ := Option.bind_eq_some_iff.mp eq
      obtain ⟨two, resultN, composed⟩ := Option.bind_eq_some_iff.mp rest
      have together := parallelComposition_accounts composed x
      rw [sequentialSlips, resultP, resultN, dueUnits, Diagram.unitsAt_node]
      cases has : x.test f with
      | true =>
          obtain ⟨half, found, accounts⟩ := ihPos resultP
          have restricted := (restrictTrue_accounts has one).add (restrictFalse_accounts has two)
          rw [add_zero] at restricted
          exact ⟨_, by simp [found], together.trans (restricted.trans accounts)⟩
      | false =>
          obtain ⟨half, found, accounts⟩ := ihNeg resultN
          rw [restrictTrue_lacks has, restrictFalse_lacks has, zero_add] at together
          exact ⟨_, by simp [found], together.trans accounts⟩

/-! ## Outputs -/

/-- What the units make of a packet. -/
def made (units : Multiset ActionUnit) (x : Packet) : Multiset Packet :=
  units.bind fun unit => unit.outputs x

/-- No leaf has a packet function. -/
def Diagram.FunctionFree (d : Diagram T) : Prop := d.AllUnits fun unit => unit.body = none

omit [Inhabited T] in
theorem made_dueUnits {lhs : Diagram T} (free : lhs.FunctionFree) (rhs : Diagram T) (x : Packet) :
    made (dueUnits lhs rhs x) x = (lhs.outputs x).bind rhs.outputs := by
  have bodies : ∀ unit ∈ lhs.unitsAt x, unit.body = none := Diagram.AllLeaves.leafAt x free
  rw [made, dueUnits, Multiset.bind_assoc, Diagram.outputs, Multiset.bind_assoc]
  refine Multiset.bind_congr fun action mem => ?_
  obtain ⟨pred, body, post⟩ := action
  obtain rfl : body = none := bodies _ mem
  rw [ActionUnit.outputs, Multiset.singleton_bind, Multiset.bind_map]
  exact Multiset.bind_congr fun unit _ => seqActions_outputs rfl unit x

/-- A sequential composition makes of a packet what its second diagram makes of the outputs of the
first, if and only if its slips for the packet make of it in all what they lose. -/
theorem outputs_iff_even {lhs rhs d : Diagram T} (free : lhs.FunctionFree)
    (result : sequentialComposition lhs rhs = some d) (x : Packet) :
    ∃ slips, sequentialSlips x lhs rhs = some slips ∧
      (d.outputs x = (lhs.outputs x).bind rhs.outputs ↔
        made (gained slips) x = made (lost slips) x) := by
  obtain ⟨slips, found, accounts⟩ := sequentialComposition_accounts x result
  refine ⟨slips, found, ?_⟩
  have balance : d.outputs x + made (lost slips) x =
      (lhs.outputs x).bind rhs.outputs + made (gained slips) x := by
    rw [← made_dueUnits free, made, made, made, ← Multiset.add_bind, ← accounts, Multiset.add_bind]
    rfl
  constructor
  · intro right
    rw [right] at balance
    exact (add_left_cancel balance).symm
  · intro even
    rw [even] at balance
    exact add_right_cancel balance

/-! ## Without slips -/

/-- Of the tests of each type the packet passes one at most. -/
def PassesOne (x : Packet) (P : Field → Prop) : Prop :=
  ∀ f g, P f → P g → f.type = g.type → x.test f = true → x.test g = true → f = g

/-- Of the tests of the types that a set of actions sets, the packet with the actions passes only those
for the very bits. -/
def Decides (acts : FieldSet) (x : Packet) (P : Field → Prop) : Prop :=
  ∀ f, P f → ∀ bits, acts.find f.type = some bits → (acts.apply x).test f = true → bits = f.bits

theorem slipIf_false (pos neg : Multiset ActionUnit) : slipIf false pos neg = [] := rfl

theorem PassesOne.fails {x : Packet} {P : Field → Prop} (one : PassesOne x P) {f g : Field} (left : P f)
    (right : P g) (type : g.type = f.type) (ne : g ≠ f) (has : x.test f = true) : x.test g = false := by
  cases passed : x.test g with
  | true => exact absurd (one g f right left type passed has) ne
  | false => rfl

omit [Inhabited T] in
theorem trueSlips_nil {x : Packet} {P : Field → Prop} (one : PassesOne x P) {f : Field} (known : P f)
    (has : x.test f = true) {d : Diagram T} (fields : d.AllFields P) : trueSlips f x d = [] := by
  induction d with
  | leaf l => rfl
  | node g pos neg ihPos ihNeg =>
      obtain ⟨knownG, knownP, knownN⟩ := fields
      rw [trueSlips, ihPos knownP, ihNeg knownN]
      split_ifs with same type
      · rfl
      · rw [one.fails known knownG type same has, slipIf_false, List.append_nil]
      all_goals rfl

omit [Inhabited T] in
theorem falseSlips_nil {x : Packet} {P : Field → Prop} (one : PassesOne x P) {f : Field} (known : P f)
    (has : x.test f = true) {d : Diagram T} (fields : d.AllFields P) : falseSlips f x d = [] := by
  induction d with
  | leaf l => rfl
  | node g pos neg ihPos ihNeg =>
      obtain ⟨knownG, knownP, knownN⟩ := fields
      rw [falseSlips, ihPos knownP, ihNeg knownN]
      split_ifs with same type value passed
      · rfl
      · exact absurd passed (by simp [one.fails known knownG type same has])
      all_goals rfl

omit [Inhabited T] in
theorem parallelSlips_nil {x : Packet} {P : Field → Prop} (one : PassesOne x P) {lhs rhs : Diagram T}
    (left : lhs.AllFields P) (right : rhs.AllFields P) : parallelSlips x lhs rhs = [] := by
  fun_induction parallelSlips x lhs rhs with
  | case1 => rfl
  | case2 f pos neg r has ih => exact ih left.2.1 right
  | case3 f pos neg r lacks ih => exact ih left.2.2 right
  | case4 l f pos neg ih => exact ih right left
  | case5 pos neg g pos' neg' has ih => exact ih left.2.1 right.2.1
  | case6 pos neg g pos' neg' lacks ih => exact ih left.2.2 right.2.2
  | case7 f pos neg g pos' neg' ne before has type ih =>
      rw [one.fails left.1 right.1 type.symm (Ne.symm ne) has, slipIf_false, List.nil_append]
      exact ih left.2.1 right.2.2
  | case8 f pos neg g pos' neg' ne before has type ih => exact ih left.2.1 right
  | case9 f pos neg g pos' neg' ne before lacks ih => exact ih left.2.2 right
  | case10 f pos neg g pos' neg' ne not after ih => exact ih right left
  | case11 => rfl

omit [Inhabited T] in
theorem applierSlips_nil {x : Packet} {P : Field → Prop} {action : ActionUnit}
    (decides : Decides action.predActions x P) {d : Diagram T} (fields : d.AllFields P) :
    applierSlips action x d = [] := by
  induction d with
  | leaf l => rfl
  | node f pos neg ihPos ihNeg =>
      obtain ⟨known, knownP, knownN⟩ := fields
      rw [applierSlips, ihPos knownP, ihNeg knownN]
      cases found : action.predActions.find f.type with
      | none => simp
      | some bits =>
          dsimp only
          split_ifs with same
          · rfl
          · have fails : (action.predActions.apply x).test f = false :=
              Bool.eq_false_iff.mpr fun passed => same (decides f known bits found passed)
            rw [fails, slipIf_false, List.append_nil]

theorem foldSlips_nil {x : Packet} {P : Field → Prop} (one : PassesOne x P) {rhs : Diagram T}
    (fields : rhs.AllFields P) : ∀ {units : List ActionUnit} {start : Diagram T} {slips : List Slip},
      start.AllFields P → (∀ action ∈ units, Decides action.predActions x P) →
        foldSlips x rhs units start = some slips → slips = []
  | [], _, _, _, _, found => (Option.some.inj found).symm
  | action :: units, start, slips, kept, decide, found => by
      obtain ⟨next, result, rest⟩ := Option.bind_eq_some_iff.mp found
      obtain ⟨later, rest, total⟩ := Option.bind_eq_some_iff.mp rest
      have applied := leftActionApplier_fields action fields
      have nextFields := (parallelComposition_keeps result).fields P kept applied
      have none : later = [] := foldSlips_nil one fields nextFields
        (fun action mem => decide action (List.mem_cons_of_mem _ mem)) rest
      obtain rfl := Option.some.inj total
      rw [none, applierSlips_nil (decide action List.mem_cons_self) fields,
        parallelSlips_nil one kept applied, List.append_nil, List.append_nil]

/-- A packet that passes one test of each type at most, with actions that decide the tests of the types
they set, meets no slips. -/
theorem sequentialSlips_nil {x : Packet} {P : Field → Prop} (one : PassesOne x P) {rhs : Diagram T}
    (fields : rhs.AllFields P) : ∀ {lhs : Diagram T} {slips : List Slip}, lhs.AllFields P →
      (∀ action ∈ lhs.unitsAt x, Decides action.predActions x P) →
        sequentialSlips x lhs rhs = some slips → slips = [] := by
  intro lhs
  induction lhs with
  | leaf l =>
      intro slips _ decide found
      rw [sequentialSlips] at found
      split_ifs at found
      · exact (Option.some.inj found).symm
      · have start (l : Leaf T) : (Diagram.leaf l).AllFields P := trivial
        exact foldSlips_nil one fields (start _) decide found
  | node f pos neg ihPos ihNeg =>
      rintro slips ⟨known, knownP, knownN⟩ decide found
      obtain ⟨l, resultP, rest⟩ := Option.bind_eq_some_iff.mp found
      obtain ⟨r, resultN, rest⟩ := Option.bind_eq_some_iff.mp rest
      have fieldsP := sequentialComposition_fields fields knownP resultP
      have fieldsN := sequentialComposition_fields fields knownN resultN
      have together := parallelSlips_nil one (restrictTrue_fields known fieldsP)
        (restrictFalse_fields known fieldsN)
      cases has : x.test f with
      | true =>
          rw [Diagram.unitsAt_pos _ _ has] at decide
          simp only [has, if_true] at rest
          obtain ⟨half, below, total⟩ := Option.bind_eq_some_iff.mp rest
          obtain rfl := Option.some.inj total
          rw [together, ihPos knownP decide below, trueSlips_nil one known has fieldsP,
            falseSlips_nil one known has fieldsN]
          rfl
      | false =>
          rw [Diagram.unitsAt_neg _ _ has] at decide
          simp only [has, Bool.false_eq_true, if_false] at rest
          obtain ⟨half, below, total⟩ := Option.bind_eq_some_iff.mp rest
          obtain rfl := Option.some.inj total
          rw [together, ihNeg knownN decide below]
          rfl

/-! ## Two kinds of slips -/

/-- The diagram of a filter. -/
def Diagram.ofFilter (f : Field) : Diagram T := .node f (.leaf (.single (.ofActions ∅))) (.leaf .stop)

theorem ofFilter_outputs {f : Field} {x : Packet} (has : x.test f = true) :
    (Diagram.ofFilter f : Diagram T).outputs x = {x} := by
  rw [Diagram.outputs, Diagram.ofFilter, Diagram.unitsAt_pos _ _ has]
  rfl

theorem ofFilter_fields {P : Field → Prop} {f : Field} (known : P f) :
    (Diagram.ofFilter f : Diagram T).AllFields P := ⟨known, trivial, trivial⟩

theorem single_free (acts : FieldSet) :
    (Diagram.leaf (.single (.ofActions acts)) : Diagram T).FunctionFree := by
  intro unit mem
  rw [List.mem_singleton.mp mem]
  rfl

theorem ofFilter_free (f : Field) : (Diagram.ofFilter f : Diagram T).FunctionFree :=
  ⟨single_free ∅, stop_units _⟩

theorem sequentialComposition_single (unit : ActionUnit) (rhs : Diagram T) :
    sequentialComposition (.leaf (.single unit)) rhs =
      parallelComposition (.leaf .stop) (leftActionApplier unit rhs) := by
  rw [sequentialComposition, if_neg (by simp [Leaf.single]), Leaf.single, List.foldlM_cons]
  exact bind_pure _

/-- A filter behind an action that sets other bits than its very bits passes nothing. -/
theorem action_filter {acts : FieldSet} {f : Field} {bits : MaskedBits (nbits f.type)}
    (sets : acts.find f.type = some bits) (ne : bits ≠ f.bits) :
    ∃ d : Diagram T, sequentialComposition (.leaf (.single (.ofActions acts))) (.ofFilter f) = some d ∧
      ∀ x, d.outputs x = 0 := by
  have found : (ActionUnit.ofActions acts).predActions.find f.type = some bits := sets
  have applied : leftActionApplier (.ofActions acts) (.ofFilter f : Diagram T) = .leaf .stop := by
    rw [Diagram.ofFilter, leftActionApplier, found]
    simp only [ne, if_false]
    rfl
  rw [sequentialComposition_single, applied, parallelComposition_leaves]
  exact ⟨_, rfl, fun x => rfl⟩

/-- Of two different filters of one type the second one passes nothing. -/
theorem filter_filter {f g : Field} (ne : g ≠ f) (type : g.type = f.type) :
    ∃ d : Diagram T, sequentialComposition (.ofFilter f) (.ofFilter g) = some d ∧
      ∀ x, d.outputs x = 0 := by
  have applied : leftActionApplier (.ofActions ∅) (.ofFilter g : Diagram T) = .ofFilter g := rfl
  have one : sequentialComposition (.leaf (.single (.ofActions ∅))) (.ofFilter g : Diagram T) =
      some (.ofFilter g) := by
    rw [sequentialComposition_single, applied, Diagram.ofFilter, parallelComposition_leaf_node,
      parallelComposition_node_leaf, parallelComposition_leaves, parallelComposition_leaves]
    rfl
  have two : sequentialComposition (.leaf .stop) (.ofFilter g : Diagram T) = some (.leaf .stop) := rfl
  have composed : sequentialComposition (.ofFilter f) (.ofFilter g : Diagram T) =
      some (.node f (.leaf .stop) (.leaf .stop)) := by
    rw [Diagram.ofFilter, sequentialComposition, one, two]
    show parallelComposition (restrictTrue f (.ofFilter g)) (restrictFalse f (.leaf .stop)) = _
    rw [Diagram.ofFilter, restrictTrue, if_neg ne, if_pos type, restrictTrue, restrictFalse,
      parallelComposition_same, parallelComposition_leaves]
    rfl
  refine ⟨_, composed, fun x => ?_⟩
  rw [Diagram.outputs, Diagram.unitsAt_node, ite_self, unitsAt_stop, Multiset.zero_bind]

/-- **A sequential composition that meets no slip for a packet makes of it what its second diagram makes
of the outputs of the first.** All compositions of diagrams over a set of tests do where the actions are
of a set, if and only if the packet passes one of the tests of each type at most and those actions
decide the tests of the types they set. -/
theorem sequentialComposition_outputs_iff :
    (∀ lhs rhs d : Diagram T, lhs.FunctionFree → sequentialComposition lhs rhs = some d → ∀ x,
      sequentialSlips x lhs rhs = some [] → d.outputs x = (lhs.outputs x).bind rhs.outputs) ∧
    ∀ (x : Packet) (P : Field → Prop) (A : FieldSet → Prop), A ∅ →
      ((∀ lhs rhs d : Diagram T, lhs.FunctionFree → rhs.FunctionFree → lhs.AllFields P →
          rhs.AllFields P → (∀ action ∈ lhs.unitsAt x, A action.predActions) →
            sequentialComposition lhs rhs = some d →
              d.outputs x = (lhs.outputs x).bind rhs.outputs) ↔
        PassesOne x P ∧ ∀ acts, A acts → Decides acts x P) := by
  refine ⟨fun lhs rhs d free result x none => ?_, fun x P A none => ⟨fun all => ?_, ?_⟩⟩
  · obtain ⟨slips, found, even⟩ := outputs_iff_even free result x
    obtain rfl := Option.some.inj (none.symm.trans found)
    exact even.mpr rfl
  · constructor
    · -- of two tests of one type that are passed, a filter for the one behind a filter for the other
      intro f g left right type has has'
      by_contra ne
      obtain ⟨d, result, nothing⟩ := filter_filter (T := T) (Ne.symm ne) type.symm
      have right := all _ _ d (ofFilter_free f) (ofFilter_free g) (ofFilter_fields left)
        (ofFilter_fields right) ?_ result
      · rw [nothing, ofFilter_outputs has, Multiset.singleton_bind, ofFilter_outputs has'] at right
        exact Multiset.zero_ne_singleton _ right
      · rw [Diagram.ofFilter, Diagram.unitsAt_pos _ _ has]
        intro action mem
        rw [Multiset.mem_singleton.mp mem]
        exact none
    · -- an action that does not decide a test, in front of a filter for it
      intro acts known f left bits sets passed
      by_contra ne
      obtain ⟨d, result, nothing⟩ := action_filter (T := T) sets ne
      have right := all _ _ d (single_free acts) (ofFilter_free f) trivial (ofFilter_fields left) ?_ result
      · have output : (Diagram.leaf (.single (.ofActions acts) : Leaf T)).outputs x =
            {acts.apply x} := rfl
        rw [nothing, output, Multiset.singleton_bind, ofFilter_outputs passed] at right
        exact Multiset.zero_ne_singleton _ right
      · intro action mem
        rw [Multiset.mem_singleton.mp mem]
        exact known
  · rintro ⟨one, decide⟩ lhs rhs d free - left right acts result
    obtain ⟨slips, found, even⟩ := outputs_iff_even free result x
    obtain rfl := sequentialSlips_nil one right left (fun action mem => decide _ (acts action mem)) found
    exact even.mpr rfl

end

open scoped Drunos.Oxm.OpenflowBasic in
/-- An action that writes one bit, in front of a filter for this bit: no packet meets a slip, neither
here nor in any other composition with this action and this test. -/
theorem sequentialComposition_outputs_iff_bit :
    let f : Field := ⟨ipv4Src, .read 1 0x1#32⟩
    let lhs : Diagram Unit := .leaf (.single (.ofActions (.ofField f)))
    let rhs : Diagram Unit := .ofFilter f
    (∃ d, sequentialComposition lhs rhs = some d ∧
      ∀ x, d.outputs x = (lhs.outputs x).bind rhs.outputs) ∧
    ∀ (x : Packet) (one two d : Diagram Unit), one.FunctionFree → two.FunctionFree →
      one.AllFields (· = f) → two.AllFields (· = f) →
        (∀ action ∈ one.unitsAt x, action.predActions = ∅ ∨ action.predActions = .ofField f) →
          sequentialComposition one two = some d → d.outputs x = (one.outputs x).bind two.outputs := by
  intro f lhs rhs
  have sets : (FieldSet.ofField f).find f.type = some f.bits := by decide
  have decides : ∀ x acts, acts = ∅ ∨ acts = .ofField f → Decides acts x (· = f) := by
    rintro x acts (rfl | rfl) g rfl bits found passed
    · cases found
    · exact Option.some.inj (found.symm.trans sets)
  have one : ∀ x, PassesOne x (· = f) := fun x g h left right _ _ _ => left.trans right.symm
  constructor
  · have applied : leftActionApplier (.ofActions (.ofField f)) rhs =
        .leaf (.single (.ofActions (.ofField f))) := by
      show leftActionApplier _ (.node f _ _) = _
      rw [leftActionApplier]
      simp only [ActionUnit.ofActions, ActionUnit.predActions, sets, if_true]
      rfl
    have result : sequentialComposition lhs rhs = some (.leaf (.single (.ofActions (.ofField f)))) := by
      rw [sequentialComposition_single, applied, parallelComposition_leaves]
      rfl
    refine ⟨_, result, fun x => ?_⟩
    obtain ⟨slips, found, -⟩ := sequentialComposition_accounts x result
    have known : lhs.AllFields (· = f) := trivial
    obtain rfl : slips = [] := by
      refine sequentialSlips_nil (one x) (ofFilter_fields rfl) known (fun action mem => ?_) found
      rw [Multiset.mem_singleton.mp mem]
      exact decides x _ (.inr rfl)
    exact (sequentialComposition_outputs_iff (T := Unit)).1 lhs rhs _ (single_free _) result x found
  · exact fun x => ((sequentialComposition_outputs_iff (T := Unit)).2 x (· = f)
      (fun acts => acts = ∅ ∨ acts = .ofField f) (.inl rfl)).mpr ⟨one x, decides x⟩

open scoped Drunos.Oxm.OpenflowBasic in
/-- An action sets the whole source, and a filter for one bit that is in it passes nothing. -/
theorem sequentialComposition_losesPacket : ¬∀ lhs rhs d : Diagram Unit, lhs.FunctionFree →
    rhs.FunctionFree → lhs.AllFields Field.Fits → rhs.AllFields Field.Fits →
      (lhs.AllUnits fun unit => unit.predActions.Fits) → sequentialComposition lhs rhs = some d →
        ∀ x, d.outputs x = (lhs.outputs x).bind rhs.outputs := by
  intro all
  let f : Field := ⟨ipv4Src, .read 1 0x1#32⟩
  let acts : FieldSet := .ofField (.exactly ipv4Src 5#32)
  let x := OpenflowBasic.packet []
  have sets : acts.find f.type = some (.exactly 5#32) := by decide
  have ne : (.exactly 5#32 : MaskedBits (nbits f.type)) ≠ f.bits := by decide
  have passed : (acts.apply x).test f = true := by decide
  obtain ⟨d, result, nothing⟩ := action_filter (T := Unit) sets ne
  have actsFit : (Diagram.leaf (.single (.ofActions acts)) : Diagram Unit).AllUnits
      fun unit => unit.predActions.Fits := fun unit mem =>
    List.mem_singleton.mp mem ▸ FieldSet.fits_modify FieldSet.fits_empty (Field.exactly_fits _ _)
  have right := all _ _ d (single_free acts) (ofFilter_free f) trivial (ofFilter_fields (by decide))
    actsFit result x
  have output : (Diagram.leaf (.single (.ofActions acts) : Leaf Unit)).outputs x = {acts.apply x} := rfl
  rw [nothing, output, Multiset.singleton_bind, ofFilter_outputs passed] at right
  exact Multiset.zero_ne_singleton _ right

end Drunos.Retic
