/-
# Drunos.Retic.Smooth — policies that are compiled without slips

Where the compositions of a policy meet no slip for a packet (`Policy.SmoothAt`), the leaf of its
diagram has the units and the settings of the policy, whatever masks there are (`smoothAt_leaf`). A
packet is smooth for a policy if this also holds of the policies that its functions return for it, as
they are compiled one after another (`Smooth`).

`Returns` says which policy the functions return for a packet in the end, in terms of policies
alone. A traversal finds the units and the settings this policy has for the packet
(`traverse_smooth`).
-/
import Drunos.Retic.Returned
import Drunos.Retic.Slips

namespace Drunos.Retic

open Drunos.Oxm Drunos.Theory Drunos.Maple

set_option autoImplicit false

section

variable [OxmTypes] {T : Type} [Inhabited T] {x : Packet} {f : Field}

/-! ## Settings without slips -/

theorem slipIf_nil {passed : Bool} {pos neg : Multiset ActionUnit} :
    slipIf passed pos neg = [] ↔ passed = false := by
  cases passed <;> simp [slipIf]

theorem restrictTrue_settings (has : x.test f = true) : ∀ {d : Diagram T}, trueSlips f x d = [] →
    ((restrictTrue f d).leafAt x).flowSettings = (d.leafAt x).flowSettings := by
  intro d
  induction d with
  | leaf l => exact fun _ => by rw [restrictTrue, Diagram.leafAt_node, if_pos has]
  | node g pos neg ihPos ihNeg =>
      intro none
      rw [restrictTrue]
      rw [trueSlips] at none
      split_ifs at none ⊢ with same type before passed
      · rw [same, Diagram.leafAt_node, Diagram.leafAt_node, if_pos has, if_pos has]
      · obtain ⟨fails, rest⟩ := List.append_eq_nil_iff.mp none
        rw [ihNeg rest, Diagram.leafAt_node, if_neg (by simp [slipIf_nil.mp fails])]
      · rw [Diagram.leafAt_node, if_pos has]
      · rw [Diagram.leafAt_node, Diagram.leafAt_node, if_pos passed, if_pos passed, ihPos none]
      · rw [Diagram.leafAt_node, Diagram.leafAt_node, if_neg passed, if_neg passed, ihNeg none]

theorem restrictTrue_lacks_settings (lacks : x.test f = false) (d : Diagram T) :
    ((restrictTrue f d).leafAt x).flowSettings = {} := by
  induction d with
  | leaf l =>
      rw [restrictTrue, Diagram.leafAt_node, if_neg (by simp [lacks])]
      rfl
  | node g pos neg ihPos ihNeg =>
      rw [restrictTrue]
      split_ifs
      · rw [Diagram.leafAt_node, if_neg (by simp [lacks])]
        rfl
      · exact ihNeg
      · rw [Diagram.leafAt_node, if_neg (by simp [lacks])]
        rfl
      · rw [Diagram.leafAt_node]
        split_ifs
        · exact ihPos
        · exact ihNeg

theorem restrictFalse_settings (has : x.test f = true) : ∀ {d : Diagram T}, falseSlips f x d = [] →
    ((restrictFalse f d).leafAt x).flowSettings = {} := by
  intro d
  induction d with
  | leaf l =>
      intro _
      rw [restrictFalse, Diagram.leafAt_node, if_pos has]
      rfl
  | node g pos neg ihPos ihNeg =>
      intro none
      rw [restrictFalse]
      rw [falseSlips] at none
      split_ifs at none ⊢ with same type value passed before passed
      · rw [Diagram.leafAt_node, if_pos has]
        rfl
      · rw [Diagram.leafAt_node, if_neg passed, ihNeg none]
      · rw [Diagram.leafAt_node, if_pos has]
        rfl
      · rw [Diagram.leafAt_node, if_pos has]
        rfl
      · rw [Diagram.leafAt_node, if_pos passed, ihPos none]
      · rw [Diagram.leafAt_node, if_neg passed, ihNeg none]

theorem restrictFalse_lacks_settings (lacks : x.test f = false) (d : Diagram T) :
    ((restrictFalse f d).leafAt x).flowSettings = (d.leafAt x).flowSettings := by
  induction d with
  | leaf l => rw [restrictFalse, Diagram.leafAt_node, if_neg (by simp [lacks])]
  | node g pos neg ihPos ihNeg =>
      rw [restrictFalse]
      split_ifs with same
      · subst same
        simp only [Diagram.leafAt_node, lacks, Bool.false_eq_true, if_false]
      · rw [Diagram.leafAt_node, Diagram.leafAt_node]
        split_ifs
        · rfl
        · exact ihNeg
      · rw [Diagram.leafAt_node, if_neg (by simp [lacks])]
      · rw [Diagram.leafAt_node, if_neg (by simp [lacks])]
      · rw [Diagram.leafAt_node, Diagram.leafAt_node]
        split_ifs
        · exact ihPos
        · exact ihNeg

theorem parallelSlips_settings {lhs rhs d : Diagram T} (result : parallelComposition lhs rhs = some d) :
    parallelSlips x lhs rhs = [] → (d.leafAt x).flowSettings =
      (lhs.leafAt x).flowSettings.inter (rhs.leafAt x).flowSettings := by
  replace result := parallelComposition_result result
  induction result with
  | leaves l r => exact fun _ => rfl
  | nodeLeaf _ _ ihP ihN =>
      rw [parallelSlips, Diagram.leafAt_node, Diagram.leafAt_node]
      split_ifs
      · exact ihP
      · exact ihN
  | leafNode _ ih =>
      rw [parallelSlips, FlowSettings.inter_comm]
      exact ih
  | same _ _ ihP ihN =>
      rw [parallelSlips, if_pos rfl, Diagram.leafAt_node, Diagram.leafAt_node, Diagram.leafAt_node]
      split_ifs
      · exact ihP
      · exact ihN
  | @before f g pos neg pos' neg' _ _ before _ _ ihP ihN =>
      rw [parallelSlips, if_neg before.ne, if_pos before, Diagram.leafAt_node, Diagram.leafAt_node x f]
      split_ifs with has type
      · intro none
        obtain ⟨fails, rest⟩ := List.append_eq_nil_iff.mp none
        rw [if_pos type] at ihP
        rw [Diagram.leafAt_node x g, if_neg (by simp [slipIf_nil.mp fails])]
        exact ihP rest
      · rwa [if_neg type] at ihP
      · exact ihN
  | after ne not _ ih =>
      rw [parallelSlips_swap ne not, FlowSettings.inter_comm]
      exact ih

theorem applierSlips_settings {action : ActionUnit} : ∀ {d : Diagram T}, applierSlips action x d = [] →
    ((leftActionApplier action d).leafAt x).flowSettings =
      (d.leafAt (action.predActions.apply x)).flowSettings := by
  intro d
  induction d with
  | leaf l => exact fun _ => rfl
  | node g pos neg ihPos ihNeg =>
      have value := FieldSet.apply_apply action.predActions x g.type
      rw [leftActionApplier, applierSlips]
      cases found : action.predActions.find g.type with
      | none =>
          have absent : action.predActions.entry g.type = none := found
          have unchanged : (action.predActions.apply x).test g = x.test g := by
            rw [Packet.test, Packet.test, value]
            simp [FieldSet.get, absent]
          rw [Diagram.leafAt_node, Diagram.leafAt_node, unchanged]
          dsimp only
          split_ifs
          · exact ihPos
          · exact ihNeg
      | some bits =>
          dsimp only
          split_ifs with same
          · -- the packet has the very bits that are asked for
            have passes : (action.predActions.apply x).test g = true := by
              rw [Packet.test_iff, value, FieldSet.get_of_entry found, same]
              exact g.bits.write_matches _
            rw [Diagram.leafAt_node, if_pos passes]
            exact ihPos
          · intro none
            obtain ⟨fails, rest⟩ := List.append_eq_nil_iff.mp none
            rw [Diagram.leafAt_node, if_neg (by simp [slipIf_nil.mp fails])]
            exact ihNeg rest

theorem foldSlips_settings {rhs : Diagram T} : ∀ {units : List ActionUnit} {start d : Diagram T},
    units.foldlM (fun result action => parallelComposition result (leftActionApplier action rhs)) start =
      some d → foldSlips x rhs units start = some [] →
        (d.leafAt x).flowSettings = ((units : Multiset ActionUnit).map fun action =>
          (rhs.leafAt (action.predActions.apply x)).flowSettings).fold FlowSettings.inter
            (start.leafAt x).flowSettings
  | [], start, d, eq, _ => by
      obtain rfl := Option.some.inj eq
      rfl
  | action :: units, start, d, eq, clean => by
      obtain ⟨next, result, rest⟩ := Option.bind_eq_some_iff.mp eq
      obtain ⟨next', result', clean⟩ := Option.bind_eq_some_iff.mp clean
      obtain rfl := Option.some.inj (result.symm.trans result')
      obtain ⟨later, found, total⟩ := Option.bind_eq_some_iff.mp clean
      have total : applierSlips action x rhs ++
          parallelSlips x start (leftActionApplier action rhs) ++ later = [] := Option.some.inj total
      rw [List.append_eq_nil_iff, List.append_eq_nil_iff] at total
      obtain ⟨⟨applied, merged⟩, rfl⟩ := total
      rw [foldSlips_settings rest found, parallelSlips_settings result merged,
        applierSlips_settings applied, ← Multiset.cons_coe, Multiset.map_cons, FlowSettings.inter_comm,
        Multiset.fold_cons'_left]

theorem sequentialSlips_settings {rhs : Diagram T} : ∀ {lhs d : Diagram T},
    sequentialComposition lhs rhs = some d → sequentialSlips x lhs rhs = some [] →
      (lhs.leafAt x).flowSettings.hardTimeout ≤ durationMax →
        (d.leafAt x).flowSettings = sequentialSettings (lhs.unitsAt x) (lhs.leafAt x).flowSettings
          (fun y => (rhs.leafAt y).flowSettings) x := by
  intro lhs
  induction lhs with
  | leaf l =>
      intro d eq clean _
      rw [sequentialComposition] at eq
      rw [sequentialSlips] at clean
      split_ifs at eq clean with nothing
      · obtain rfl := Option.some.inj eq
        rw [sequentialSettings, if_pos (by simpa [Diagram.unitsAt] using nothing)]
        rfl
      · have all := foldSlips_settings eq clean
        rw [sequentialSettings, if_neg (by simpa [Diagram.unitsAt] using nothing)]
        exact all
  | node g pos neg ihPos ihNeg =>
      intro d eq clean range
      obtain ⟨one, resultP, rest⟩ := Option.bind_eq_some_iff.mp eq
      obtain ⟨two, resultN, composed⟩ := Option.bind_eq_some_iff.mp rest
      obtain ⟨one', resultP', rest⟩ := Option.bind_eq_some_iff.mp clean
      obtain ⟨two', resultN', rest⟩ := Option.bind_eq_some_iff.mp rest
      obtain rfl := Option.some.inj (resultP.symm.trans resultP')
      obtain rfl := Option.some.inj (resultN.symm.trans resultN')
      rw [Diagram.unitsAt_node]
      rw [Diagram.leafAt_node] at range ⊢
      cases has : x.test g with
      | true =>
          simp only [has, if_true] at rest range ⊢
          obtain ⟨half, found, total⟩ := Option.bind_eq_some_iff.mp rest
          have total : half ++ (trueSlips g x one ++ falseSlips g x two) ++
              parallelSlips x (restrictTrue g one) (restrictFalse g two) = [] := Option.some.inj total
          simp only [List.append_eq_nil_iff] at total
          obtain ⟨⟨rfl, onTrue, onFalse⟩, together⟩ := total
          rw [parallelSlips_settings composed together, restrictTrue_settings has onTrue,
            restrictFalse_settings has onFalse, ihPos resultP found range]
          exact sequentialSettings_default range
      | false =>
          simp only [has, Bool.false_eq_true, if_false] at rest range ⊢
          obtain ⟨half, found, total⟩ := Option.bind_eq_some_iff.mp rest
          have total : half ++ [] ++
              parallelSlips x (restrictTrue g one) (restrictFalse g two) = [] := Option.some.inj total
          simp only [List.append_eq_nil_iff] at total
          obtain ⟨⟨rfl, -⟩, together⟩ := total
          rw [parallelSlips_settings composed together, restrictTrue_lacks_settings has,
            restrictFalse_lacks_settings has, FlowSettings.inter_comm, ihNeg resultN found range]
          exact sequentialSettings_default range

end

variable [OxmTypes]

/-! ## Smooth policies -/

namespace Policy

/-- The compositions of the policy end, and the packet meets no slip in them. -/
def SmoothAt : Policy → Packet → Prop
  | negation p, x => SmoothAt p x
  | sequential p q, x => SmoothAt p x ∧ (∀ unit ∈ p.units x, SmoothAt q (unit.predActions.apply x)) ∧
      ∃ d1 d2 d : Fdd, compile p = some d1 ∧ compile q = some d2 ∧
        sequentialComposition d1 d2 = some d ∧ sequentialSlips x d1 d2 = some []
  | parallel p q, x => SmoothAt p x ∧ SmoothAt q x ∧
      ∃ d1 d2 d : Fdd, compile p = some d1 ∧ compile q = some d2 ∧
        parallelComposition d1 d2 = some d ∧ parallelSlips x d1 d2 = []
  | _, _ => True

end Policy

/-- **The leaf of a packet that meets no slip is the one the policy says.** -/
theorem smoothAt_leaf : ∀ {p : Policy} {x : Packet}, p.SmoothAt x → ∃ d : Fdd, compile p = some d ∧
    d.unitsAt x = p.units x ∧ (p.Durations → (d.leafAt x).flowSettings = p.settings x) := by
  intro p
  induction p with
  | filter f =>
      intro x _
      refine ⟨_, rfl, ?_, fun _ => ?_⟩
      · rw [Diagram.unitsAt_node]
        rfl
      · rw [Diagram.leafAt_node]
        split_ifs <;> rfl
  | negation p ih =>
      intro x smooth
      obtain ⟨d, result, units, settings⟩ := ih smooth
      refine ⟨negationComposition d, by rw [compile, result]; rfl, ?_, fun durations => ?_⟩
      · rw [Diagram.unitsAt, negationComposition_leafAt, Policy.units, ← units]
        simp only [Diagram.unitsAt, Multiset.coe_card, List.isEmpty_iff, List.length_eq_zero_iff]
        split_ifs <;> rfl
      · rw [negationComposition_leafAt]
        exact settings durations
  | sequential p q ihP ihQ =>
      rintro x ⟨smoothP, smoothQ, d1, d2, d, result1, result2, result, clean⟩
      obtain ⟨d1', result1', unitsP, settingsP⟩ := ihP smoothP
      obtain rfl := Option.some.inj (result1.symm.trans result1')
      have next : ∀ unit ∈ p.units x, d2.unitsAt (unit.predActions.apply x) =
          q.units (unit.predActions.apply x) ∧ (q.Durations →
            (d2.leafAt (unit.predActions.apply x)).flowSettings =
              q.settings (unit.predActions.apply x)) := by
        intro unit mem
        obtain ⟨d2', result2', facts⟩ := ihQ (smoothQ unit mem)
        obtain rfl := Option.some.inj (result2.symm.trans result2')
        exact facts
      refine ⟨d, by rw [compile, result1, result2]; exact result, ?_, fun durations => ?_⟩
      · obtain ⟨slips, found, accounts⟩ := sequentialComposition_accounts x result
        obtain rfl := Option.some.inj (clean.symm.trans found)
        have due : d.unitsAt x = dueUnits d1 d2 x := by simpa [Accounts, lost, gained] using accounts
        rw [due, dueUnits, unitsP, Policy.units]
        exact Multiset.bind_congr fun unit mem => by rw [(next unit mem).1]
      · have first := settingsP durations.1
        have range := first ▸ Policy.settings_range durations.1 x
        rw [sequentialSlips_settings result clean range, first, unitsP, Policy.settings,
          sequentialSettings, sequentialSettings]
        split_ifs
        · rfl
        · exact congrArg (Multiset.fold FlowSettings.inter _)
            (Multiset.map_congr rfl fun unit mem => (next unit mem).2 durations.2)
  | parallel p q ihP ihQ =>
      rintro x ⟨smoothP, smoothQ, d1, d2, d, result1, result2, result, clean⟩
      obtain ⟨d1', result1', unitsP, settingsP⟩ := ihP smoothP
      obtain rfl := Option.some.inj (result1.symm.trans result1')
      obtain ⟨d2', result2', unitsQ, settingsQ⟩ := ihQ smoothQ
      obtain rfl := Option.some.inj (result2.symm.trans result2')
      refine ⟨d, by rw [compile, result1, result2]; exact result, ?_, fun durations => ?_⟩
      · have accounts := parallelComposition_accounts result x
        have due : d.unitsAt x = d1.unitsAt x + d2.unitsAt x := by
          simpa [Accounts, clean, lost, gained] using accounts
        rw [due, unitsP, unitsQ]
        rfl
      · rw [parallelSlips_settings result clean, settingsP durations.1, settingsQ durations.2]
        rfl
  | _ => exact fun _ => ⟨_, rfl, rfl, fun _ => rfl⟩

/-- The packet is smooth for the policy and for those its functions return for it; durations are of 32
bits. -/
inductive Smooth (x : Packet) : Policy → Prop where
  | intro {p : Policy} (durations : p.Durations) (here : p.SmoothAt x)
      (returned : ∀ d : Fdd, compile p = some d → (d.leafAt x).verdict.hasBody = true →
        Smooth x ((d.leafAt x).verdict.returned x)) : Smooth x p

/-! ## The policy returned in the end -/

/-- From a policy to the one that its functions return for the packet in the end, which has no
function to run for it. -/
inductive Returns (x : Packet) : Policy → Policy → Prop where
  | last {p : Policy} (plain : ∀ unit ∈ p.units x, unit.body = none) : Returns x p p
  | returned {p q : Policy} {units : List ActionUnit} (same : (units : Multiset ActionUnit) = p.units x)
      (body : ∃ unit ∈ units, unit.body ≠ none)
      (rest : Returns x (.sum (units.map fun unit => unit.returned x)) q) : Returns x p q

/-- A policy that has no function to run for the packet is returned itself. -/
theorem Returns.plain {x : Packet} {p q : Policy} (returns : Returns x p q)
    (plain : ∀ unit ∈ p.units x, unit.body = none) : q = p := by
  cases returns with
  | last _ => rfl
  | returned same body _ =>
      obtain ⟨unit, mem, some⟩ := body
      exact absurd (plain unit (same ▸ Multiset.mem_coe.mpr mem)) some

/-- A leaf with one unit goes on with what the unit returns. -/
theorem Returns.single {x : Packet} {p q : Policy} {unit : ActionUnit} (returns : Returns x p q)
    (single : p.units x = {unit}) (body : unit.body ≠ none) : Returns x (unit.returned x) q := by
  cases returns with
  | last plain => exact absurd (plain unit (single ▸ Multiset.mem_singleton_self unit)) body
  | returned same _ rest =>
      rw [single, Multiset.coe_eq_singleton] at same
      subst same
      exact rest

theorem hasBody_iff {v : Verdict} : v.hasBody = true ↔ ∃ unit ∈ v.sets, unit.body ≠ none := by
  simp [Verdict.hasBody, Option.isSome_iff_ne_none]

/-- The leaf of a packet leads to the leaf of what the functions return in the end. -/
theorem leads_smooth {x : Packet} {p : Policy} (smooth : Smooth x p) : ∃ (d : Fdd) (q : Policy) (w : Verdict),
    compile p = some d ∧ Returns x p q ∧ Leads x (d.leafAt x).verdict w ∧
      (w.sets : Multiset ActionUnit) = q.units x ∧ w.flowSettings = q.settings x := by
  induction smooth with
  | @intro p durations here _ ih =>
      obtain ⟨d, compiled, units, settings⟩ := smoothAt_leaf here
      have units : ((d.leafAt x).sets : Multiset ActionUnit) = p.units x := units
      by_cases body : (d.leafAt x).verdict.hasBody = true
      · obtain ⟨d₁, q, w, compiled₁, returns, leads, facts⟩ := ih d compiled body
        exact ⟨d, q, w, compiled, .returned units (hasBody_iff.mp body) returns,
          .returned body compiled₁ leads, facts⟩
      · refine ⟨d, p, _, compiled, .last fun unit mem => ?_, .plain (by simpa using body), units,
          settings durations⟩
        by_contra some
        rw [← units] at mem
        exact body (hasBody_iff.mpr ⟨unit, Multiset.mem_coe.mp mem, some⟩)

/-- **The leaf a traversal finds for a smooth packet on a compiled diagram has the units and the
settings of the policy that the functions return in the end.** -/
theorem traverse_smooth (backend : Bool) {p : Policy} {x : Packet} (smooth : Smooth x p) :
    ∃ d r q, compile p = some d ∧ traverse backend x d ∅ = pure r ∧ Returns x p q ∧
      (r.leaf.sets : Multiset ActionUnit) = q.units x ∧ r.leaf.flowSettings = q.settings x := by
  obtain ⟨d, q, w, compiled, returns, leads, units, settings⟩ := leads_smooth smooth
  have unexplored := Diagram.AllLeaves.leafAt x (compile_unexplored compiled)
  obtain ⟨r, result, rfl⟩ := traverse_fresh backend leads rfl unexplored ∅
  exact ⟨d, r, q, compiled, result, returns, units, settings⟩

end Drunos.Retic
