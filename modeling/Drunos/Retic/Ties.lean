/-
# Drunos.Retic.Ties — when the priorities run out

Each split of the translator halves what is left of its range for the rules on the two sides of
it. `Diagram.turns` are the sides a packet is on, split by split; its leaf gets the sum of the
halves of what they leave (`callAt_prio`).

In a diagram that tests no type again below a passed test of it the rule of the packet's leaf wins
in any case (`translate_callAt_first`). It wins alone if and only if its turns are not tied
(`translate_callAt_alone_iff`): they may go both ways until the range is used up, which fourteen
turns never do. With what is known of the compiler (`Retests`) this says for which packets the
table of a policy is right (`translate_outputs`).
-/
import Drunos.Retic.PathTable
import Drunos.Retic.Retests
import Drunos.Theory.Halving

namespace Drunos.Retic

open Drunos.Oxm Drunos.Theory PriorityTable Halving

set_option autoImplicit false

section

variable [OxmTypes] {T : Type}

/-! ## Turns -/

/-- The split of the mask is over when a leaf or a test of another mask comes: the packet is on its
negative side. -/
def closing (previous next : Option Mask) : List Bool :=
  if previous.isNone ∨ previous = next then [] else [false]

/-- The sides a packet is on, split by split. -/
def Diagram.turns (x : Packet) : Diagram T → Option Mask → List Bool
  | .leaf _, previous => closing previous none
  | .node f pos neg, previous =>
      closing previous (some f.mask) ++
        if x.test f then true :: pos.turns x none else neg.turns x (some f.mask)

theorem tied_closing (i : Span) (previous next : Option Mask) (turns : List Bool) :
    i.Tied (closing previous next ++ turns) ↔ (i.after (closing previous next)).Tied turns := by
  rw [closing]
  split <;> rfl

/-- The range of the translator, halved. -/
def range : Span := ⟨0, 32767, by decide⟩

/-- The packet has been on both sides of splits after the range was used up. -/
def RunsOut (turns : List Bool) : Prop := Span.BothWays (Span.rest 14 turns)

instance (turns : List Bool) : Decidable (RunsOut turns) := inferInstanceAs (Decidable (Span.BothWays _))

/-! ## Halves -/

/-- The halves of what is left, with the split that is going on still open. -/
structure Priorities.Halved (s : Priorities) (i : Span) : Prop where
  down : s.prioDown / 2 = i.lo
  up : s.prioUp / 2 = i.hi
  middle : s.previousMask ≠ none → s.prioMiddle = i.sum

namespace Priorities.Halved

variable {s : Priorities} {i : Span}

theorem initial : Halved {} range where
  down := by
    show 1 / 2 = 0
    decide
  up := by
    show 65535 / 2 = 32767
    decide
  middle := fun none => absurd rfl none

/-- The priority of a leaf. -/
theorem prio (halved : s.Halved i) : s.prio = (i.after (closing s.previousMask none)).sum := by
  have down := halved.down
  have up := halved.up
  have middle := halved.middle
  rw [Priorities.prio, localPrioUp, closing]
  cases previous : s.previousMask with
  | none =>
      simp [Span.sum]
      omega
  | some m =>
      have middle := middle (by simp [previous])
      simp [Span.sum, Span.middle] at middle ⊢
      omega

theorem enter (halved : s.Halved i) (f : Field) :
    (s.enter f).Halved (i.after (closing s.previousMask (some f.mask))) := by
  by_cases same : s.previousMask = some f.mask
  · rw [Priorities.enter, if_pos same, closing, if_pos (.inr same)]
    exact halved
  · have down := halved.down
    have up := halved.up
    have middle := halved.middle
    rw [Priorities.enter, if_neg same, closing]
    cases previous : s.previousMask with
    | none =>
        refine ⟨?_, ?_, fun _ => ?_⟩
        · simpa using down
        · simpa using up
        · simp [Span.sum]
          omega
    | some m =>
        have ne : some m ≠ some f.mask := previous ▸ same
        have middle := middle (by simp [previous])
        refine ⟨?_, ?_, fun _ => ?_⟩
        · simpa [ne] using down
        · simp [ne, Span.middle, middle, Span.sum]
        · simp [ne, Span.middle, middle, Span.sum, down]
          omega

theorem positive (halved : s.Halved i) (going : s.previousMask ≠ none) : s.positive.Halved i.up where
  down := by
    show s.prioMiddle / 2 = _
    rw [halved.middle going]
    rfl
  up := halved.up
  middle := fun none => absurd rfl none

end Priorities.Halved

/-! ## Priorities of rules -/

/-- The priority of a packet's leaf. -/
theorem callAt_prio {d : Diagram T} (x : Packet) : ∀ (match' : FieldSet) {s : Priorities} {i : Span},
    s.Halved i →
      (d.callAt x match' s).rule.prio = (i.after (d.turns x s.previousMask)).sum := by
  induction d with
  | leaf l =>
      intro match' s i halved
      rw [Diagram.callAt, Leaf.call_rule, Diagram.turns]
      exact halved.prio
  | node f pos neg ihPos ihNeg =>
      intro match' s i halved
      have next := halved.enter f
      have previous := s.enter_previousMask f
      rw [Diagram.callAt, Diagram.turns, Span.after_append]
      split_ifs
      · exact ihPos _ (next.positive (by simp [previous]))
      · have negative := ihNeg match' next
        rwa [previous] at negative

/-- The rules of a subtree are in what is left for it. -/
theorem translate_prio_within {d : Diagram T} : ∀ {match' : FieldSet} {s : Priorities} {i : Span}
    {r : Rule Packet (Option (List FieldSet))}, s.Halved i →
      r ∈ table (translate d match' s).calls → i.Within r.prio := by
  induction d with
  | leaf l =>
      intro match' s i r halved mem
      obtain rfl : r = (l.call match' s.prio).rule := List.mem_singleton.mp mem
      rw [Leaf.call_rule, halved.prio]
      exact (Span.within_sum _).of_after
  | node f pos neg ihPos ihNeg =>
      intro match' s i r halved mem
      have next := halved.enter f
      rw [translate, table_append, List.mem_append] at mem
      rcases mem with memN | memP
      · exact (ihNeg next memN).of_after
      · exact (ihPos (next.positive (by simp [s.enter_previousMask f])) memP).of_up.of_after

/-- Where a packet has no value of the split that is tested below, the rules that match it are below
the split. -/
theorem translate_down {d : Diagram T} {m : Mask} {x : Packet} :
    ∀ {match' : FieldSet} {s : Priorities} {i : Span} {r : Rule Packet (Option (List FieldSet))},
      Sited d match' → s.Halved i → s.previousMask = some m →
        (d.AllFields fun g => g.mask = m → x.test g = false) →
          r ∈ table (translate d match' s).calls → r.covers x = true → i.down.Within r.prio := by
  induction d with
  | leaf l =>
      intro match' s i r _ halved going _ mem _
      obtain rfl : r = (l.call match' s.prio).rule := List.mem_singleton.mp mem
      rw [Leaf.call_rule, halved.prio, going, closing, if_neg (by simp)]
      exact Span.within_sum _
  | node g pos neg ihPos ihNeg =>
      intro match' s i r sited halved going others mem covers
      have next := halved.enter g
      have positive := next.positive (by simp [s.enter_previousMask g])
      obtain ⟨here, -, othersN⟩ := others
      rw [translate, table_append, List.mem_append] at mem
      by_cases same : g.mask = m
      · rw [going, same, closing, if_pos (.inr rfl)] at next
        rcases mem with memN | memP
        · exact ihNeg sited.negative next (by rw [s.enter_previousMask g, same]) othersN memN covers
        · have has := ((sited.test_positive x).mp (translate_covers (sited.below _) memP covers)).2
          rw [here same] at has
          cases has
      · rw [going, closing, if_neg (by simp [Ne.symm same])] at next positive
        rcases mem with memN | memP
        · exact translate_prio_within next memN
        · exact (translate_prio_within positive memP).of_up

/-- The rule of a packet's leaf matches it. -/
theorem callAt_mem {d : Diagram T} {x : Packet} : ∀ {match' : FieldSet} {s : Priorities},
    Sited d match' → match'.test x = true →
      (d.callAt x match' s).rule ∈ table (translate d match' s).calls ∧
        (d.callAt x match' s).rule.covers x = true := by
  induction d with
  | leaf l =>
      intro match' s _ known
      refine ⟨List.mem_singleton_self _, ?_⟩
      rwa [Diagram.callAt, Leaf.call_rule]
  | node f pos neg ihPos ihNeg =>
      intro match' s sited known
      rw [translate, table_append, Diagram.callAt, List.mem_append]
      cases has : x.test f with
      | true =>
          have here := ihPos (s := (s.enter f).positive) (sited.below (s.enter f))
            ((sited.test_positive x).mpr ⟨known, has⟩)
          exact ⟨.inr here.1, here.2⟩
      | false =>
          have here := ihNeg (s := s.enter f) sited.negative known
          exact ⟨.inl here.1, here.2⟩

/-- What a packet's leaf gets is in what is left for it. -/
theorem callAt_within (d : Diagram T) (x : Packet) (match' : FieldSet) {s : Priorities} {i : Span}
    (halved : s.Halved i) : i.Within (d.callAt x match' s).rule.prio := by
  rw [callAt_prio x match' halved]
  exact (Span.within_sum _).of_after

/-! ## Who wins -/

/-- A packet that has the field has no other value the negative side tests. -/
theorem Sited.others {f : Field} {pos neg : Diagram T} {match' : FieldSet}
    (sited : Sited (.node f pos neg) match') {x : Packet} (has : x.test f = true) :
    neg.AllFields fun g => g.mask = f.mask → x.test g = false := by
  refine (sited.exact.2.2.and sited.distinct.1).mono fun g ⟨exactG, ne⟩ mask => ?_
  have sameType : g.type = f.type := congrArg Mask.type mask
  by_contra test
  have lacks := Packet.test_exact_ne exactG sited.exact.1 sameType ne.symm
    (Bool.eq_true_of_not_eq_false test)
  rw [has] at lacks
  cases lacks

/-- The rules of the positive side match no packet that lacks the field. -/
theorem Sited.lacks {f : Field} {pos neg : Diagram T} {match' : FieldSet}
    (sited : Sited (.node f pos neg) match') {s s' : Priorities} {x : Packet} (lacks : x.test f = false)
    {r : Rule Packet (Option (List FieldSet))}
    (mem : r ∈ table (translate pos ((translate neg match' s).match'.modify f) s').calls) :
    r.covers x ≠ true := by
  intro covers
  have has := ((sited.test_positive x).mp (translate_covers (sited.below s) mem covers)).2
  rw [lacks] at has
  cases has

/-- **No rule that matches a packet is above the one of its leaf.** -/
theorem translate_callAt_first {d : Diagram T} {x : Packet} :
    ∀ {match' : FieldSet} {s : Priorities} {i : Span}, Sited d match' → s.Halved i →
      ∀ r ∈ table (translate d match' s).calls, r.covers x = true →
        r.prio ≤ (d.callAt x match' s).rule.prio := by
  induction d with
  | leaf l =>
      intro match' s i _ _ r mem _
      obtain rfl : r = (l.call match' s.prio).rule := List.mem_singleton.mp mem
      exact le_rfl
  | node f pos neg ihPos ihNeg =>
      intro match' s i sited halved r mem covers
      have next := halved.enter f
      have previous := s.enter_previousMask f
      have positive := next.positive (by simp [previous])
      rw [translate, table_append, List.mem_append] at mem
      rw [Diagram.callAt]
      cases has : x.test f with
      | true =>
          rcases mem with memN | memP
          · have below := translate_down sited.negative next previous (sited.others has) memN covers
            exact below.le (callAt_within pos x _ positive)
          · exact ihPos (sited.below _) positive r memP covers
      | false =>
          rcases mem with memN | memP
          · exact ihNeg sited.negative next r memN covers
          · exact absurd covers (sited.lacks has memP)

/-- **The rule of a packet's leaf wins alone if and only if the packet's turns are not tied.** -/
theorem translate_callAt_alone_iff {d : Diagram T} {x : Packet} :
    ∀ {match' : FieldSet} {s : Priorities} {i : Span}, Sited d match' → s.Halved i →
      match'.test x = true →
        (WinsAlone (table (translate d match' s).calls) x (d.callAt x match' s).rule ↔
          ¬i.Tied (d.turns x s.previousMask)) := by
  induction d with
  | leaf l =>
      intro match' s i _ _ known
      have covers : (l.call match' s.prio).rule.covers x = true := by
        rw [Leaf.call_rule]
        exact known
      refine iff_of_true (WinsAlone.singleton covers) ?_
      rw [Diagram.turns, closing]
      split <;> exact fun none => none
  | node f pos neg ihPos ihNeg =>
      intro match' s i sited halved known
      have next := halved.enter f
      have previous := s.enter_previousMask f
      have positive := next.positive (by simp [previous])
      rw [translate, table_append, Diagram.callAt, Diagram.turns, tied_closing]
      cases has : x.test f with
      | true =>
          have known' := (sited.test_positive (s := s.enter f) x).mpr ⟨known, has⟩
          have mem := (callAt_mem (s := (s.enter f).positive) (sited.below (s.enter f)) known').1
          have wins := ihPos (sited.below (s.enter f)) positive known'
          have above := callAt_within pos x ((translate neg match' (s.enter f)).match'.modify f) positive
          have prio := callAt_prio (d := pos) x ((translate neg match' (s.enter f)).match'.modify f) positive
          have closed : (s.enter f).positive.previousMask = none := rfl
          rw [closed] at wins prio
          simp only [if_true] at mem ⊢
          rw [WinsAlone.append_right_iff mem, wins, Span.Tied, not_or, and_comm, ← prio]
          refine and_congr_left fun _ => ⟨?_, fun room r memN covers => ?_⟩
          · -- the leaf the packet has on the negative side is not below the split
            rintro low ⟨empty, same⟩
            obtain ⟨memN, covers⟩ := callAt_mem (s := s.enter f) sited.negative known
            have below := (callAt_within neg x match' next).low
            have less := low _ memN covers
            rw [same] at less
            omega
          · have below := translate_down sited.negative next previous (sited.others has) memN covers
            exact below.lt above (Classical.not_and_iff_not_or_not.mp room)
      | false =>
          have wins := ihNeg sited.negative next known
          rw [previous] at wins
          rw [if_neg Bool.false_ne_true, if_neg Bool.false_ne_true, ← wins]
          exact WinsAlone.append_left_iff fun r mem => sited.lacks has mem

/-! ## How many turns -/

/-- `P` holds of the fields the filters test. -/
def Policy.AllTests (P : Field → Prop) : Policy → Prop
  | .filter f => P f
  | .negation p => AllTests P p
  | .sequential p q => AllTests P p ∧ AllTests P q
  | .parallel p q => AllTests P p ∧ AllTests P q
  | _ => True

/-- What a packet turns at, if the tests are of these types. -/
theorem turns_node_length {S : Finset OxmType} {f : Field} {pos neg : Diagram T} (x : Packet)
    (mem : f.type ∈ S) (positive : (pos.turns x none).length ≤ (S.erase f.type).card)
    (negative : (neg.turns x (some f.mask)).length ≤ S.card) :
    (if x.test f then true :: pos.turns x none else neg.turns x (some f.mask)).length ≤ S.card := by
  split
  · have less := Finset.card_erase_lt_of_mem mem
    rw [List.length_cons]
    omega
  · exact negative

/-- A packet turns once for each type. -/
theorem turns_length {d : Diagram T} (x : Packet) : ∀ {S : Finset OxmType}, OrderedOnce d →
    (d.AllFields fun f => f.type ∈ S) →
      (d.turns x none).length ≤ S.card ∧
        ∀ g, ExactKnown g → d.AllFields (Before g) → g.type ∈ S →
          (d.turns x (some g.mask)).length ≤ S.card := by
  induction d with
  | leaf l =>
      intro S _ _
      refine ⟨by simp [Diagram.turns, closing], fun g _ _ mem => ?_⟩
      have pos := Finset.card_pos.mpr ⟨_, mem⟩
      simpa [Diagram.turns, closing] using pos
  | node f pos neg ihPos ihNeg =>
      intro S ordered types
      -- the node itself, with the types that are left
      have here {S : Finset OxmType} (types : (Diagram.node f pos neg).AllFields fun f => f.type ∈ S) :
          (if x.test f then true :: pos.turns x none else neg.turns x (some f.mask)).length ≤ S.card := by
        refine turns_node_length x types.1 (ihPos ordered.positive ?_).1
          ((ihNeg ordered.negative types.2.2).2 f ordered.known.1.1 ordered.known.2.1.2 types.1)
        exact (types.2.1.and ordered.once.1).mono fun g ⟨mem, ne⟩ => Finset.mem_erase.mpr ⟨ne, mem⟩
      rw [Diagram.turns]
      refine ⟨?_, fun g known before mem => ?_⟩
      · rw [closing, if_pos (.inl rfl), List.nil_append]
        exact here types
      · rw [Diagram.turns, closing]
        split
        · exact here types
        · rename_i ne
          have other : g.type ≠ f.type := fun same =>
            ne (.inr (congrArg some ((mask_eq_iff known.1 ordered.known.1.1.1).mpr same)))
          have others := others_after known before.1 other ordered.known
          have left := here ((types.and others).mono fun h ⟨mem, ne⟩ => Finset.mem_erase.mpr ⟨ne, mem⟩)
          have less := Finset.card_erase_lt_of_mem mem
          rw [List.length_append, List.length_singleton]
          omega

variable [Inhabited T]

/-- A diagram tests what the filters of its policy test. -/
theorem compile_tests {P : Field → Prop} : ∀ {p : Policy} {d : Diagram T}, p.AllTests P →
    compile p = some d → d.AllFields P := by
  intro p
  induction p with
  | filter f =>
      intro d tests result
      obtain rfl := Option.some.inj result
      exact ⟨tests, trivial, trivial⟩
  | negation p ih =>
      intro d tests result
      obtain ⟨inner, resultI, result⟩ := Option.bind_eq_some_iff.mp result
      obtain rfl := Option.some.inj result
      exact negationComposition_fields (ih tests resultI)
  | sequential p q ihP ihQ =>
      rintro d ⟨testsP, testsQ⟩ result
      obtain ⟨d1, resultP, result⟩ := Option.bind_eq_some_iff.mp result
      obtain ⟨d2, resultQ, result⟩ := Option.bind_eq_some_iff.mp result
      exact sequentialComposition_fields (ihQ testsQ resultQ) (ihP testsP resultP) result
  | parallel p q ihP ihQ =>
      rintro d ⟨testsP, testsQ⟩ result
      obtain ⟨d1, resultP, result⟩ := Option.bind_eq_some_iff.mp result
      obtain ⟨d2, resultQ, result⟩ := Option.bind_eq_some_iff.mp result
      exact (parallelComposition_keeps result).fields P (ihP testsP resultP) (ihQ testsQ resultQ)
  | _ =>
      intro d _ result
      obtain rfl := Option.some.inj result
      trivial

/-! ## The table of a policy -/

/-- One rule wins alone for the packet, with the action sets of its leaf, which make of it what the
policy does. -/
def RuleRight (p : Policy) (d : Diagram T) (x : Packet) : Prop :=
  ∃ r sets, WinsAlone (table (translate d ∅ {}).calls) x r ∧ r.action = some sets ∧
    sets = (d.leafAt x).sets.map ActionUnit.predActions ∧
    (sets : Multiset FieldSet).map (fun acts => acts.apply x) = p.outputs x

omit [Inhabited T] in
theorem Diagram.Ordered.distinct {d : Diagram T} (ordered : d.Ordered) : d.Distinct := by
  induction d with
  | leaf l => trivial
  | node f pos neg ihPos ihNeg =>
      exact ⟨ordered.1.2.mono fun _ before => before.ne, ihPos ordered.2.1, ihNeg ordered.2.2⟩

omit [Inhabited T] in
/-- A diagram is translated from the start with an empty match. -/
theorem OrderedOnce.sited {d : Diagram T} (ordered : OrderedOnce d) : Sited d ∅ where
  exact := ordered.known.1.mono fun _ known => known.1
  distinct := ordered.known.2.distinct
  once := ordered.once
  fresh := d.allFields_of_forall fun _ => rfl

omit [Inhabited T] in
theorem ruleRight_iff {p : Policy} {d : Diagram T} (free : p.FunctionFree) (compiled : Compiled p d)
    (ordered : OrderedOnce d) (x : Packet) : RuleRight p d x ↔ ¬RunsOut (d.turns x none) := by
  have known : (∅ : FieldSet).test x = true := FieldSet.test_empty x
  have halved := Priorities.Halved.initial
  have alone := translate_callAt_alone_iff (s := {}) ordered.sited halved known
  rw [Span.tied_iff (n := 14) (show 32767 + 1 = 0 + 2 ^ 15 by decide)] at alone
  rw [← show _ ↔ ¬RunsOut (d.turns x none) from alone]
  have mem := callAt_mem (s := {}) ordered.sited known
  have action := Diagram.callAt_action (d := d) x ∅ {}
  have plain : ∀ unit ∈ (d.leafAt x).sets, Plain unit :=
    Diagram.AllLeaves.leafAt x (compiled.plain free)
  have noBody : ((d.leafAt x).sets.any fun unit => unit.body.isSome) = false := by
    simpa using fun unit mem => (plain unit mem).body
  constructor
  · rintro ⟨r, sets, wins, -, -, -⟩
    obtain rfl := wins.eq_of_wins ⟨mem, translate_callAt_first ordered.sited halved⟩
    exact wins
  · intro wins
    refine ⟨_, _, wins, action.trans (if_neg (by simp [noBody])), rfl, ?_⟩
    rw [← compiled.applied free x, ← Multiset.map_coe, Multiset.map_map]
    rfl

/-- **The table of a policy without packet functions, if no parallel composition of its compilation
retests: one rule wins alone for a packet, with the action sets of the packet's leaf, and applied to
the packet they are the outputs of the policy, if and only if the packet is not on both sides of
splits after the range is used up. With fifteen types in its filters no packet is.** -/
theorem translate_outputs {p : Policy} (free : p.FunctionFree) (known : p.AllFields ExactKnown) :
    ∃ d : Diagram T, compile p = some d ∧ (CompilesClean T p →
      (∀ x : Packet, RuleRight p d x ↔ ¬RunsOut (d.turns x none)) ∧
        ∀ types : Finset OxmType, (p.AllTests fun f => f.type ∈ types) → types.card ≤ 15 →
          ∀ x : Packet, RuleRight p d x) := by
  obtain ⟨d, result, compiled⟩ := compile_spec (T := T) free.functionsLast known
  refine ⟨d, result, fun clean => ?_⟩
  have ordered := compile_orderedOnce known clean result
  refine ⟨ruleRight_iff free compiled ordered, fun types tests few x => ?_⟩
  refine (ruleRight_iff free compiled ordered x).mpr fun out => ?_
  have many := Span.bothWays_rest out
  have turns := (turns_length x ordered (compile_tests tests result)).1
  omega

end

section

open scoped Drunos.Oxm.OpenflowBasic

/-- Two VLANs, for two ports. -/
theorem translate_outputs_forward :
    compile forwardTwo = some forwardTwoDiagram ∧ ∀ x : Packet, RuleRight forwardTwo forwardTwoDiagram x := by
  obtain ⟨d, compiled, right⟩ :=
    translate_outputs (T := Unit) (p := forwardTwo) ⟨⟨trivial, trivial⟩, trivial, trivial⟩
      ⟨forward_known 1 1, forward_known 2 2⟩
  obtain rfl : d = forwardTwoDiagram := Option.some.inj (compiled.symm.trans compile_forwardTwo)
  refine ⟨compiled, (right forwardTwo_clean).2 {vlanVid} ?_ (by simp)⟩
  exact ⟨⟨Finset.mem_singleton_self _, trivial⟩, Finset.mem_singleton_self _, trivial⟩

/-- For a packet of VLAN 3 the rule of ports 3 and 1 wins: its match is of VLAN 3
alone. -/
theorem doubleTest_wrong :
    compile doubleTest = some doubleTestDiagram ∧
      ¬ ∀ x : Packet, ∃ r sets,
        WinsAlone (table (translate doubleTestDiagram ∅ {}).calls) x r ∧ r.action = some sets ∧
          (sets : Multiset FieldSet).map (fun acts => acts.apply x) = doubleTest.outputs x := by
  refine ⟨compile_doubleTest, fun all => ?_⟩
  obtain ⟨r, sets, wins, action, outputs⟩ := all (OpenflowBasic.packet [.exactly vlanVid 3])
  have exists_high : ∃ r' ∈ table (translate doubleTestDiagram ∅ {}).calls,
      r'.covers (OpenflowBasic.packet [.exactly vlanVid 3]) = true ∧ 57342 ≤ r'.prio := by
    decide +kernel
  obtain ⟨r', mem, covers, high⟩ := exists_high
  have twice : ∀ r ∈ table (translate doubleTestDiagram ∅ {}).calls,
      57342 ≤ r.prio → r.action.map List.length = some 2 := by
    decide +kernel
  have two := twice r wins.mem (Nat.le_trans high (wins.wins.2 r' mem covers))
  have one : (doubleTest.outputs (OpenflowBasic.packet [.exactly vlanVid 3])).card = 1 := by
    decide +kernel
  rw [← outputs, Multiset.card_map, Multiset.coe_card] at one
  rw [action, Option.map_some, one] at two
  cases two

end

end Drunos.Retic
