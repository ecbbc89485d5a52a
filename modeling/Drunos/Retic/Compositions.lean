/-
# Drunos.Retic.Compositions — what the compositions do at a leaf

For diagrams whose fields are exact and of the two namespaces runos uses, the
compositions of `fdd_compiler.cc` end. The order of two different fields is total
there (`before_total`), so swapping the arguments of a parallel composition happens
once at most.

What each of them does at the leaf of a packet is one lemma for each: the parallel
one puts the actions of both leaves together, a restriction empties one side, an
applied action moves to the leaf of the modified packet, and the sequential one does
so for every unit of the first leaf (`sequenced`).
-/
import Drunos.Retic.Compiler
import Drunos.Oxm.OpenflowBasic
import Drunos.Theory.Run

namespace Drunos.Retic

open Drunos.Oxm Drunos.Theory

set_option autoImplicit false

/-! ## The order of types -/

/-- The id `compare_types` computes, before it is widened. -/
def typeCode (t : OxmType) : Nat := t.ns.toNat * 65536 + t.id.toNat

theorem typeId_toNat (t : OxmType) : (typeId t).toNat % 4294967296 = typeCode t := by
  have ns := t.ns.isLt
  have id := t.id.isLt
  rw [typeId, BitVec.toNat_signExtend, BitVec.toNat_setWidth, BitVec.toNat_or,
    BitVec.toNat_shiftLeft, BitVec.toNat_setWidth, BitVec.toNat_setWidth,
    Nat.mod_eq_of_lt (by omega : t.ns.toNat < 2 ^ 32),
    Nat.mod_eq_of_lt (by omega : t.id.toNat < 2 ^ 32),
    Nat.mod_eq_of_lt (by rw [Nat.shiftLeft_eq]; omega : t.ns.toNat <<< 16 < 2 ^ 32),
    ← Nat.shiftLeft_add_eq_or_of_lt (by omega), Nat.shiftLeft_eq, typeCode]
  split <;> omega

theorem compareTypes_eq (t u : OxmType) :
    compareTypes t u = Int.bmod (typeCode u - typeCode t) 4294967296 := by
  have low := typeId_toNat t
  have low' := typeId_toNat u
  have bound := (typeId t).isLt
  rw [compareTypes, BitVec.toInt_setWidth, BitVec.toNat_sub, ← low, ← low']
  show Int.bmod _ 4294967296 = _
  simp only [Int.bmod]
  omega

theorem compareTypes_asymm {t u : OxmType} (before : compareTypes t u > 0) :
    ¬compareTypes u t > 0 := by
  rw [compareTypes_eq] at before ⊢
  simp only [Int.bmod] at before ⊢
  omega

theorem typeCode_inj {t u : OxmType} (same : typeCode t = typeCode u) : t = u := by
  obtain ⟨ns, id⟩ := t
  obtain ⟨ns', id'⟩ := u
  have bound := id.isLt
  have bound' := id'.isLt
  simp only [typeCode] at same
  have eqNs : ns = ns' := BitVec.eq_of_toNat_eq (by omega)
  have eqId : id = id' := BitVec.eq_of_toNat_eq (by omega)
  rw [eqNs, eqId]

theorem typeCode_bounds {t : OxmType} (known : KnownNamespace t) :
    0x74060000 ≤ typeCode t ∧ typeCode t < 0x80010000 := by
  have bound := t.id.isLt
  have basic : OPENFLOW_BASIC.toNat = 0x8000 := rfl
  have nonOpenflow : NON_OPENFLOW.toNat = 0x7406 := rfl
  rcases known with ns | ns <;> rw [typeCode, ns] <;> omega

theorem compareTypes_total {t u : OxmType} (known : KnownNamespace t) (known' : KnownNamespace u)
    (ne : t ≠ u) : compareTypes t u > 0 ∨ compareTypes u t > 0 := by
  have bounds := typeCode_bounds known
  have bounds' := typeCode_bounds known'
  have codes : typeCode t ≠ typeCode u := fun same => ne (typeCode_inj same)
  rw [compareTypes_eq, compareTypes_eq]
  simp only [Int.bmod]
  omega

section

variable [OxmTypes] {T : Type} [Inhabited T]

/-! ## The order of fields -/

/-- An exact field of a known namespace. -/
def ExactKnown (f : Field) : Prop := f.exact = true ∧ KnownNamespace f.type

/-- The field that a composition tests first. -/
def Before (f g : Field) : Prop :=
  (f.type = g.type ∧ f.bits.value.toNat < g.bits.value.toNat) ∨
    (f.type ≠ g.type ∧ compareTypes f.type g.type > 0)

theorem exact_eq_of_value {f g : Field} (exact : f.exact = true) (exact' : g.exact = true)
    (same : f.type = g.type) (value : f.bits.value.toNat = g.bits.value.toNat) : f = g := by
  obtain ⟨t, b⟩ := f
  obtain ⟨t', b'⟩ := g
  obtain rfl : t = t' := same
  have all : b = .exactly b.value := MaskedBits.eq_exactly exact
  have all' : b' = .exactly b'.value := MaskedBits.eq_exactly exact'
  rw [all, all', BitVec.eq_of_toNat_eq value]

theorem before_total {f g : Field} (known : ExactKnown f) (known' : ExactKnown g) (ne : f ≠ g) :
    Before f g ∨ Before g f := by
  by_cases same : f.type = g.type
  · have values : f.bits.value.toNat ≠ g.bits.value.toNat := fun value =>
      ne (exact_eq_of_value known.1 known'.1 same value)
    rcases Nat.lt_or_gt_of_ne values with lt | lt
    · exact .inl (.inl ⟨same, lt⟩)
    · exact .inr (.inl ⟨same.symm, lt⟩)
  · rcases compareTypes_total known.2 known'.2 same with lt | lt
    · exact .inl (.inr ⟨same, lt⟩)
    · exact .inr (.inr ⟨Ne.symm same, lt⟩)

theorem Before.ne {f g : Field} (before : Before f g) : f ≠ g := by
  rintro rfl
  rcases before with ⟨-, lt⟩ | ⟨ne, -⟩
  · exact lt_irrefl _ lt
  · exact ne rfl

theorem Before.asymm {f g : Field} (before : Before f g) : ¬Before g f := by
  rintro (⟨same, lt'⟩ | ⟨ne, lt'⟩) <;> rcases before with ⟨same', lt⟩ | ⟨ne', lt⟩
  · exact Nat.lt_asymm lt lt'
  · exact ne' same.symm
  · exact ne same'.symm
  · exact compareTypes_asymm lt lt'

/-! ## Parallel composition -/

theorem parallelComposition_leaves (l r : Leaf T) :
    parallelComposition (.leaf l) (.leaf r) =
      some (.leaf
        { sets := l.sets ++ r.sets
          flowSettings := l.flowSettings.inter r.flowSettings
          mapleTree := default }) := by
  rw [parallelComposition]

theorem parallelComposition_node_leaf (f : Field) (pos neg : Diagram T) (r : Leaf T) :
    parallelComposition (.node f pos neg) (.leaf r) = do
      let positive ← parallelComposition pos (.leaf r)
      let negative ← parallelComposition neg (.leaf r)
      return .node f positive negative := by
  rw [parallelComposition]

theorem parallelComposition_leaf_node (l : Leaf T) (f : Field) (pos neg : Diagram T) :
    parallelComposition (.leaf l) (.node f pos neg) =
      parallelComposition (.node f pos neg) (.leaf l) := by
  conv_lhs => rw [parallelComposition]

theorem parallelComposition_same (f : Field) (pos neg pos' neg' : Diagram T) :
    parallelComposition (.node f pos neg) (.node f pos' neg') = do
      let positive ← parallelComposition pos pos'
      let negative ← parallelComposition neg neg'
      return .node f positive negative := by
  rw [parallelComposition, if_pos rfl]

theorem parallelComposition_before {f g : Field} (before : Before f g)
    (pos neg pos' neg' : Diagram T) :
    parallelComposition (.node f pos neg) (.node g pos' neg') = do
      let positive ← parallelComposition pos (if f.type = g.type then neg' else .node g pos' neg')
      let negative ← parallelComposition neg (.node g pos' neg')
      return .node f positive negative := by
  rw [parallelComposition, if_neg before.ne]
  rcases before with ⟨same, lt⟩ | ⟨ne, lt⟩
  · rw [if_pos same, if_pos lt, if_pos same]
  · rw [if_neg ne, if_pos lt, if_neg ne]

/-- Tests in the wrong order, or in none, are swapped. -/
theorem parallelComposition_swap {f g : Field} (ne : f ≠ g) (not : ¬Before f g)
    (pos neg pos' neg' : Diagram T) :
    parallelComposition (.node f pos neg) (.node g pos' neg') =
      parallelComposition (.node g pos' neg') (.node f pos neg) := by
  conv_lhs => rw [parallelComposition, if_neg ne]
  split_ifs with same value type
  · exact absurd (.inl ⟨same, value⟩) not
  · rfl
  · exact absurd (.inr ⟨same, type⟩) not
  · rfl

theorem parallelComposition_after {f g : Field} (after : Before g f)
    (pos neg pos' neg' : Diagram T) :
    parallelComposition (.node f pos neg) (.node g pos' neg') =
      parallelComposition (.node g pos' neg') (.node f pos neg) :=
  parallelComposition_swap after.ne.symm after.asymm pos neg pos' neg'

/-- The result of a parallel composition that ends, by the calls that made it. -/
inductive ParallelResult : Diagram T → Diagram T → Diagram T → Prop where
  | leaves (l r : Leaf T) :
      ParallelResult (.leaf l) (.leaf r) (.leaf
        { sets := l.sets ++ r.sets
          flowSettings := l.flowSettings.inter r.flowSettings
          mapleTree := default })
  | nodeLeaf {f : Field} {pos neg p n : Diagram T} {r : Leaf T}
      (positive : ParallelResult pos (.leaf r) p) (negative : ParallelResult neg (.leaf r) n) :
      ParallelResult (.node f pos neg) (.leaf r) (.node f p n)
  | leafNode {f : Field} {pos neg d : Diagram T} {l : Leaf T}
      (swapped : ParallelResult (.node f pos neg) (.leaf l) d) :
      ParallelResult (.leaf l) (.node f pos neg) d
  | same {f : Field} {pos neg pos' neg' p n : Diagram T} (positive : ParallelResult pos pos' p)
      (negative : ParallelResult neg neg' n) :
      ParallelResult (.node f pos neg) (.node f pos' neg') (.node f p n)
  | before {f g : Field} {pos neg pos' neg' p n : Diagram T} (before : Before f g)
      (positive : ParallelResult pos (if f.type = g.type then neg' else .node g pos' neg') p)
      (negative : ParallelResult neg (.node g pos' neg') n) :
      ParallelResult (.node f pos neg) (.node g pos' neg') (.node f p n)
  | after {f g : Field} {pos neg pos' neg' d : Diagram T} (ne : f ≠ g) (not : ¬Before f g)
      (swapped : ParallelResult (.node g pos' neg') (.node f pos neg) d) :
      ParallelResult (.node f pos neg) (.node g pos' neg') d

theorem parallelComposition_result {lhs rhs d : Diagram T}
    (result : parallelComposition lhs rhs = some d) : ParallelResult lhs rhs d := by
  refine Diagram.parallelComposition.partial_correctness ParallelResult ?_ lhs rhs d result
  intro compose ih lhs rhs d eq
  have halves {l r l' r' : Diagram T} {f : Field} (eq : (do
      let positive ← compose l r
      let negative ← compose l' r'
      pure (Diagram.node f positive negative)) = some d) :
      ∃ p n, ParallelResult l r p ∧ ParallelResult l' r' n ∧ d = .node f p n := by
    obtain ⟨p, positive, rest⟩ := Option.bind_eq_some_iff.mp eq
    obtain ⟨n, negative, rest⟩ := Option.bind_eq_some_iff.mp rest
    exact ⟨p, n, ih _ _ _ positive, ih _ _ _ negative, (Option.some.inj rest).symm⟩
  match lhs, rhs with
  | .leaf l, .leaf r =>
      obtain rfl := Option.some.inj eq
      exact .leaves l r
  | .node f pos neg, .leaf r =>
      obtain ⟨p, n, positive, negative, rfl⟩ := halves eq
      exact .nodeLeaf positive negative
  | .leaf l, .node f pos neg => exact .leafNode (ih _ _ _ eq)
  | .node f pos neg, .node g pos' neg' =>
      simp only at eq
      split_ifs at eq with same type value first
      · obtain ⟨p, n, positive, negative, rfl⟩ := halves eq
        exact same ▸ .same positive negative
      · obtain ⟨p, n, positive, negative, rfl⟩ := halves eq
        exact .before (.inl ⟨type, value⟩) (by rwa [if_pos type]) negative
      · refine .after same (fun before => ?_) (ih _ _ _ eq)
        exact before.elim (fun first => value first.2) fun first => first.1 type
      · obtain ⟨p, n, positive, negative, rfl⟩ := halves eq
        exact .before (.inr ⟨type, first⟩) (by rwa [if_neg type]) negative
      · refine .after same (fun before => ?_) (ih _ _ _ eq)
        exact before.elim (fun other => type other.1) fun other => first other.2

/-- The parallel composition of two diagrams ends, with the fields and units of
the two, and at the leaf of a packet it has the units of both leaves. -/
def Composes (lhs rhs : Diagram T) : Prop :=
  ∃ d, parallelComposition lhs rhs = some d ∧ d.AllFields ExactKnown ∧
    (∀ Q, lhs.AllUnits Q → rhs.AllUnits Q → d.AllUnits Q) ∧
    ∀ x, d.unitsAt x = lhs.unitsAt x + rhs.unitsAt x

theorem Composes.swap {lhs rhs : Diagram T} (composes : Composes rhs lhs)
    (swap : parallelComposition lhs rhs = parallelComposition rhs lhs) : Composes lhs rhs := by
  obtain ⟨d, result, fields, units, leaves⟩ := composes
  refine ⟨d, swap.trans result, fields, fun Q left right => units Q right left, fun x => ?_⟩
  rw [leaves x, add_comm]

/-- Two halves composed on their own, under a test that decides which half of each
argument a packet goes to. -/
theorem Composes.node {lhs rhs l l' r r' : Diagram T} {f : Field} (known : ExactKnown f)
    (pos : Composes l r) (neg : Composes l' r')
    (result : parallelComposition lhs rhs = do
      let positive ← parallelComposition l r
      let negative ← parallelComposition l' r'
      return .node f positive negative)
    (units : ∀ Q, lhs.AllUnits Q → rhs.AllUnits Q →
      (l.AllUnits Q ∧ r.AllUnits Q) ∧ (l'.AllUnits Q ∧ r'.AllUnits Q))
    (has : ∀ x : Packet, x.test f = true → lhs.unitsAt x = l.unitsAt x ∧ rhs.unitsAt x = r.unitsAt x)
    (lacks : ∀ x : Packet, x.test f = false →
      lhs.unitsAt x = l'.unitsAt x ∧ rhs.unitsAt x = r'.unitsAt x) :
    Composes lhs rhs := by
  obtain ⟨p, resultP, fieldsP, unitsP, leavesP⟩ := pos
  obtain ⟨n, resultN, fieldsN, unitsN, leavesN⟩ := neg
  refine ⟨.node f p n, by simp [result, resultP, resultN], ⟨known, fieldsP, fieldsN⟩, ?_, ?_⟩
  · intro Q left right
    obtain ⟨halfP, halfN⟩ := units Q left right
    exact ⟨unitsP Q halfP.1 halfP.2, unitsN Q halfN.1 halfN.2⟩
  · intro x
    rw [Diagram.unitsAt_node]
    split
    · rw [leavesP, (has x ‹_›).1, (has x ‹_›).2]
    · have fails : x.test f = false := by simpa using ‹¬x.test f = true›
      rw [leavesN, (lacks x fails).1, (lacks x fails).2]

/-- Composition of two nodes of which the first is tested first, given the
compositions it is made of. -/
theorem composes_before {f g : Field} {pos neg pos' neg' : Diagram T} (before : Before f g)
    (known : ExactKnown f) (known' : ExactKnown g)
    (ihPos : Composes pos (if f.type = g.type then neg' else .node g pos' neg'))
    (ihNeg : Composes neg (.node g pos' neg')) :
    Composes (.node f pos neg) (.node g pos' neg') := by
  refine .node known ihPos ihNeg (parallelComposition_before before pos neg pos' neg') ?_ ?_ ?_
  · rintro Q ⟨left, left'⟩ ⟨right, right'⟩
    refine ⟨⟨left, ?_⟩, left', right, right'⟩
    split
    · exact right'
    · exact ⟨right, right'⟩
  · intro x has
    refine ⟨Diagram.unitsAt_pos pos neg has, ?_⟩
    split
    · -- a packet with the one value of the type does not have the other
      have lacks := Packet.test_exact_ne known.1 known'.1 ‹_› before.ne has
      exact Diagram.unitsAt_neg pos' neg' lacks
    · rfl
  · exact fun x lacks => ⟨Diagram.unitsAt_neg pos neg lacks, rfl⟩

theorem composes_of_size (n : Nat) : ∀ {lhs rhs : Diagram T}, lhs.size + rhs.size ≤ n →
    lhs.AllFields ExactKnown → rhs.AllFields ExactKnown → Composes lhs rhs := by
  induction n with
  | zero =>
      intro lhs rhs bound
      cases lhs <;> simp [Diagram.size] at bound
  | succ n ih =>
      intro lhs rhs bound known known'
      match lhs, rhs with
      | .leaf l, .leaf r =>
          refine ⟨_, parallelComposition_leaves l r, trivial, ?_, fun x => rfl⟩
          intro Q left right unit mem
          exact (List.mem_append.mp mem).elim (left unit) (right unit)
      | .node f pos neg, .leaf r =>
          obtain ⟨knownF, knownP, knownN⟩ := known
          simp only [Diagram.size] at bound
          refine .node knownF (@ih pos (.leaf r) ?_ knownP trivial)
            (@ih neg (.leaf r) ?_ knownN trivial) (parallelComposition_node_leaf f pos neg r) ?_
            (fun x has => ⟨Diagram.unitsAt_pos pos neg has, rfl⟩)
            (fun x lacks => ⟨Diagram.unitsAt_neg pos neg lacks, rfl⟩)
          · simp only [Diagram.size]; omega
          · simp only [Diagram.size]; omega
          · exact fun Q left right => ⟨⟨left.1, right⟩, left.2, right⟩
      | .leaf l, .node f pos neg =>
          obtain ⟨knownF, knownP, knownN⟩ := known'
          simp only [Diagram.size] at bound
          refine .swap ?_ (parallelComposition_leaf_node l f pos neg)
          refine .node knownF (@ih pos (.leaf l) ?_ knownP trivial)
            (@ih neg (.leaf l) ?_ knownN trivial) (parallelComposition_node_leaf f pos neg l) ?_
            (fun x has => ⟨Diagram.unitsAt_pos pos neg has, rfl⟩)
            (fun x lacks => ⟨Diagram.unitsAt_neg pos neg lacks, rfl⟩)
          · simp only [Diagram.size]; omega
          · simp only [Diagram.size]; omega
          · exact fun Q left right => ⟨⟨left.1, right⟩, left.2, right⟩
      | .node f pos neg, .node g pos' neg' =>
          obtain ⟨knownF, knownP, knownN⟩ := known
          obtain ⟨knownG, knownP', knownN'⟩ := known'
          simp only [Diagram.size] at bound
          by_cases same : f = g
          · subst same
            refine .node knownF (ih (by omega) knownP knownP') (ih (by omega) knownN knownN')
              (parallelComposition_same f pos neg pos' neg') ?_
              (fun x has => ⟨Diagram.unitsAt_pos pos neg has, Diagram.unitsAt_pos pos' neg' has⟩)
              (fun x lacks => ⟨Diagram.unitsAt_neg pos neg lacks, Diagram.unitsAt_neg pos' neg' lacks⟩)
            exact fun Q left right => ⟨⟨left.1, right.1⟩, left.2, right.2⟩
          · rcases before_total knownF knownG same with before | after
            · refine composes_before before knownF knownG ?_ (ih ?_ knownN ⟨knownG, knownP', knownN'⟩)
              · split
                · exact ih (by omega) knownP knownN'
                · exact ih (by simp only [Diagram.size]; omega) knownP ⟨knownG, knownP', knownN'⟩
              · simp only [Diagram.size]; omega
            · refine .swap ?_ (parallelComposition_after after pos neg pos' neg')
              refine composes_before after knownG knownF ?_ (ih ?_ knownN' ⟨knownF, knownP, knownN⟩)
              · split
                · exact ih (by omega) knownP' knownN
                · exact ih (by simp only [Diagram.size]; omega) knownP' ⟨knownF, knownP, knownN⟩
              · simp only [Diagram.size]; omega

theorem composes {lhs rhs : Diagram T} (known : lhs.AllFields ExactKnown)
    (known' : rhs.AllFields ExactKnown) : Composes lhs rhs :=
  composes_of_size _ le_rfl known known'

/-! ### Settings and trees of a parallel composition -/

/-- The settings of the two leaves of a packet are combined. -/
theorem parallelComposition_settings {lhs rhs d : Diagram T}
    (result : parallelComposition lhs rhs = some d) :
    lhs.AllFields ExactKnown → rhs.AllFields ExactKnown → ∀ x,
      (d.leafAt x).flowSettings = (lhs.leafAt x).flowSettings.inter (rhs.leafAt x).flowSettings := by
  replace result := parallelComposition_result result
  induction result with
  | leaves l r => exact fun _ _ _ => rfl
  | nodeLeaf _ _ ihP ihN =>
      intro known known' x
      simp only [Diagram.leafAt_node]
      split_ifs
      · exact ihP known.2.1 known' x
      · exact ihN known.2.2 known' x
  | leafNode _ ih =>
      intro known known' x
      rw [ih known' known x, FlowSettings.inter_comm]
  | same _ _ ihP ihN =>
      intro known known' x
      simp only [Diagram.leafAt_node]
      split_ifs
      · exact ihP known.2.1 known'.2.1 x
      · exact ihN known.2.2 known'.2.2 x
  | @before f g pos neg pos' neg' _ _ before _ _ ihP ihN =>
      intro known known' x
      rw [Diagram.leafAt_node, Diagram.leafAt_node x f]
      split_ifs with has
      · split_ifs at ihP with type
        · -- a packet with the one value of the type does not have the other
          have lacks := Packet.test_exact_ne known.1.1 known'.1.1 type before.ne has
          rw [Diagram.leafAt_node, if_neg (by simp [lacks])]
          exact ihP known.2.1 known'.2.2 x
        · exact ihP known.2.1 known' x
      · exact ihN known.2.2 known' x
  | after _ _ _ ih =>
      intro known known' x
      rw [ih known' known x, FlowSettings.inter_comm]

/-- No leaf has a tree that was explored. -/
def Diagram.Unexplored (d : Diagram T) : Prop := d.AllLeaves fun l => l.mapleTree = default

theorem parallelComposition_unexplored {lhs rhs d : Diagram T}
    (result : parallelComposition lhs rhs = some d) : d.Unexplored := by
  replace result := parallelComposition_result result
  induction result with
  | leaves l r => rfl
  | nodeLeaf _ _ ihP ihN => exact ⟨ihP, ihN⟩
  | leafNode _ ih => exact ih
  | same _ _ ihP ihN => exact ⟨ihP, ihN⟩
  | before _ _ _ ihP ihN => exact ⟨ihP, ihN⟩
  | after _ _ _ ih => exact ih

/-- The units of a parallel composition are those of the two diagrams, also where their
fields are masked. -/
theorem parallelComposition_units {Q : ActionUnit → Prop} {lhs rhs d : Diagram T}
    (result : parallelComposition lhs rhs = some d) : lhs.AllUnits Q → rhs.AllUnits Q → d.AllUnits Q := by
  replace result := parallelComposition_result result
  induction result with
  | leaves l r =>
      intro unitsL unitsR unit mem
      exact (List.mem_append.mp mem).elim (unitsL unit) (unitsR unit)
  | nodeLeaf _ _ ihP ihN =>
      exact fun unitsL unitsR => ⟨ihP unitsL.1 unitsR, ihN unitsL.2 unitsR⟩
  | leafNode _ ih => exact fun unitsL unitsR => ih unitsR unitsL
  | same _ _ ihP ihN =>
      exact fun unitsL unitsR => ⟨ihP unitsL.1 unitsR.1, ihN unitsL.2 unitsR.2⟩
  | before _ _ _ ihP ihN =>
      intro unitsL unitsR
      refine ⟨ihP unitsL.1 ?_, ihN unitsL.2 unitsR⟩
      split
      · exact unitsR.2
      · exact unitsR
  | after _ _ _ ih => exact fun unitsL unitsR => ih unitsR unitsL

/-! ## Restriction -/

theorem restrictTrue_fields {P : Field → Prop} {f : Field} (known : P f) :
    ∀ {d : Diagram T}, d.AllFields P → (restrictTrue f d).AllFields P := by
  intro d
  induction d with
  | leaf l => exact fun _ => ⟨known, trivial, trivial⟩
  | node g pos neg ihPos ihNeg =>
      rintro ⟨knownG, knownP, knownN⟩
      unfold restrictTrue
      split_ifs
      · exact ⟨known, knownP, trivial⟩
      · exact ihNeg knownN
      · exact ⟨known, ⟨knownG, knownP, knownN⟩, trivial⟩
      · exact ⟨knownG, ihPos knownP, ihNeg knownN⟩

theorem restrictFalse_fields {P : Field → Prop} {f : Field} (known : P f) :
    ∀ {d : Diagram T}, d.AllFields P → (restrictFalse f d).AllFields P := by
  intro d
  induction d with
  | leaf l => exact fun _ => ⟨known, trivial, trivial⟩
  | node g pos neg ihPos ihNeg =>
      rintro ⟨knownG, knownP, knownN⟩
      unfold restrictFalse
      split_ifs
      · exact ⟨known, trivial, knownN⟩
      · exact ⟨knownG, knownP, ihNeg knownN⟩
      · exact ⟨known, trivial, knownG, knownP, knownN⟩
      · exact ⟨known, trivial, knownG, knownP, knownN⟩
      · exact ⟨knownG, ihPos knownP, ihNeg knownN⟩

theorem stop_units (Q : ActionUnit → Prop) : (Diagram.leaf (.stop : Leaf T)).AllUnits Q :=
  fun _ mem => absurd mem List.not_mem_nil

theorem restrictTrue_units {Q : ActionUnit → Prop} (f : Field) :
    ∀ {d : Diagram T}, d.AllUnits Q → (restrictTrue f d).AllUnits Q := by
  intro d
  induction d with
  | leaf l => exact fun units => ⟨units, stop_units Q⟩
  | node g pos neg ihPos ihNeg =>
      rintro ⟨unitsP, unitsN⟩
      unfold restrictTrue
      split_ifs
      · exact ⟨unitsP, stop_units Q⟩
      · exact ihNeg unitsN
      · exact ⟨⟨unitsP, unitsN⟩, stop_units Q⟩
      · exact ⟨ihPos unitsP, ihNeg unitsN⟩

theorem restrictFalse_units {Q : ActionUnit → Prop} (f : Field) :
    ∀ {d : Diagram T}, d.AllUnits Q → (restrictFalse f d).AllUnits Q := by
  intro d
  induction d with
  | leaf l => exact fun units => ⟨stop_units Q, units⟩
  | node g pos neg ihPos ihNeg =>
      rintro ⟨unitsP, unitsN⟩
      unfold restrictFalse
      split_ifs
      · exact ⟨stop_units Q, unitsN⟩
      · exact ⟨unitsP, ihNeg unitsN⟩
      · exact ⟨stop_units Q, unitsP, unitsN⟩
      · exact ⟨stop_units Q, unitsP, unitsN⟩
      · exact ⟨ihPos unitsP, ihNeg unitsN⟩

@[simp] theorem unitsAt_stop (x : Packet) : (Diagram.leaf (.stop : Leaf T)).unitsAt x = 0 := rfl

@[simp] theorem leafAt_stop (x : Packet) : (Diagram.leaf (.stop : Leaf T)).leafAt x = .stop := rfl

/-- A packet with the field keeps its leaf, every other one finds an empty leaf. -/
theorem restrictTrue_leafAt {f : Field} (known : ExactKnown f) (x : Packet) :
    ∀ {d : Diagram T}, d.AllFields ExactKnown →
      (restrictTrue f d).leafAt x = if x.test f then d.leafAt x else .stop := by
  intro d
  induction d with
  | leaf l => exact fun _ => Diagram.leafAt_node x f _ _
  | node g pos neg ihPos ihNeg =>
      rintro ⟨knownG, knownP, knownN⟩
      rw [restrictTrue]
      by_cases same : g = f
      · subst same
        rw [if_pos rfl, Diagram.leafAt_node, Diagram.leafAt_node, leafAt_stop]
        split_ifs <;> rfl
      rw [if_neg same]
      by_cases sameType : g.type = f.type
      · rw [if_pos sameType, ihNeg knownN]
        split_ifs with has
        · have lacks := Packet.test_exact_ne known.1 knownG.1 sameType.symm (Ne.symm same) has
          rw [Diagram.leafAt_node, if_neg (by simp [lacks])]
        · rfl
      rw [if_neg sameType]
      split
      · rw [Diagram.leafAt_node, leafAt_stop]
      · rw [Diagram.leafAt_node, ihPos knownP, ihNeg knownN, Diagram.leafAt_node]
        split_ifs <;> rfl

/-- A packet without the field keeps its leaf, every other one finds an empty leaf. -/
theorem restrictFalse_leafAt {f : Field} (known : ExactKnown f) (x : Packet) :
    ∀ {d : Diagram T}, d.AllFields ExactKnown →
      (restrictFalse f d).leafAt x = if x.test f then .stop else d.leafAt x := by
  intro d
  induction d with
  | leaf l => exact fun _ => Diagram.leafAt_node x f _ _
  | node g pos neg ihPos ihNeg =>
      rintro ⟨knownG, knownP, knownN⟩
      rw [restrictFalse]
      by_cases same : g = f
      · subst same
        rw [if_pos rfl, Diagram.leafAt_node, Diagram.leafAt_node, leafAt_stop]
        split_ifs <;> rfl
      rw [if_neg same]
      by_cases sameType : g.type = f.type
      · rw [if_pos sameType]
        split
        · rw [Diagram.leafAt_node, ihNeg knownN, Diagram.leafAt_node]
          split_ifs with has has'
          · have lacks := Packet.test_exact_ne knownG.1 known.1 sameType same has
            simp [lacks] at has'
          · rfl
          · rfl
          · rfl
        · rw [Diagram.leafAt_node, leafAt_stop]
      rw [if_neg sameType]
      split
      · rw [Diagram.leafAt_node, leafAt_stop]
      · rw [Diagram.leafAt_node, ihPos knownP, ihNeg knownN, Diagram.leafAt_node]
        split_ifs <;> rfl

/-- Two restricted halves put together are the half of the packet. -/
theorem restricted_unitsAt {f : Field} (known : ExactKnown f) {one two d : Diagram T}
    (fields : one.AllFields ExactKnown) (fields' : two.AllFields ExactKnown) (x : Packet)
    (leaves : d.unitsAt x = (restrictTrue f one).unitsAt x + (restrictFalse f two).unitsAt x) :
    d.unitsAt x = if x.test f then one.unitsAt x else two.unitsAt x := by
  rw [leaves, Diagram.unitsAt, Diagram.unitsAt, restrictTrue_leafAt known x fields,
    restrictFalse_leafAt known x fields']
  split_ifs
  · exact add_zero _
  · exact zero_add _

/-! ## Applying actions to a diagram -/

/-- All fields of a set are exact. -/
def ExactSet (s : FieldSet) : Prop := ∀ t b, s.entry t = some b → b.exact = true

theorem exactSet_modify {s : FieldSet} {f : Field} (exact : ExactSet s) (exactF : f.exact = true) :
    ExactSet (s.modify f) := by
  intro t b found
  by_cases same : t = f.type
  · subst same
    rw [FieldSet.entry_modify_self, MaskedBits.overwrite_exact exactF] at found
    rw [← Option.some.inj found]
    exact exactF
  · rw [FieldSet.entry_modify_of_ne s same] at found
    exact exact t b found

theorem exactSet_empty : ExactSet (∅ : FieldSet) := fun _ _ found => by cases found

theorem fieldSetUnion_exact {lhs rhs : FieldSet} (exact : ExactSet lhs) (exact' : ExactSet rhs) :
    ExactSet (fieldSetUnion lhs rhs) := by
  have fields : ∀ f ∈ rhs.fields, f.exact = true := fun f mem =>
    exact' f.type f.bits (FieldSet.mem_fields.mp mem)
  unfold fieldSetUnion
  generalize rhs.fields = fs at fields
  induction fs generalizing lhs with
  | nil => exact exact
  | cons f fs ih =>
      exact ih (exactSet_modify exact (fields f List.mem_cons_self))
        fun g mem => fields g (List.mem_cons_of_mem f mem)

/-- The union of two sets is one applied after the other. -/
theorem fieldSetUnion_apply (lhs rhs : FieldSet) (x : Packet) :
    (fieldSetUnion lhs rhs).apply x = rhs.apply (lhs.apply x) := by
  unfold fieldSetUnion
  rw [FieldSet.apply.eq_def rhs]
  generalize rhs.fields = fs
  induction fs generalizing lhs with
  | nil => rfl
  | cons f fs ih => rw [List.foldl_cons, ih, FieldSet.apply_modify, List.foldl_cons]

theorem leftActionApplier_fields {P : Field → Prop} (action : ActionUnit) :
    ∀ {d : Diagram T}, d.AllFields P → (leftActionApplier action d).AllFields P := by
  intro d
  induction d with
  | leaf l => exact fun _ => trivial
  | node g pos neg ihPos ihNeg =>
      rintro ⟨knownG, knownP, knownN⟩
      unfold leftActionApplier
      cases action.predActions.find g.type with
      | none => exact ⟨knownG, ihPos knownP, ihNeg knownN⟩
      | some bits =>
          simp only
          split_ifs
          · exact ihPos knownP
          · exact ihNeg knownN

theorem leftActionApplier_units {action : ActionUnit} {Q Q' : ActionUnit → Prop}
    (kept : ∀ unit, Q unit → Q' (seqActions action unit)) :
    ∀ {d : Diagram T}, d.AllUnits Q → (leftActionApplier action d).AllUnits Q' := by
  intro d
  induction d with
  | leaf l =>
      intro units unit mem
      obtain ⟨before, memBefore, rfl⟩ := List.mem_map.mp mem
      exact kept before (units before memBefore)
  | node g pos neg ihPos ihNeg =>
      rintro ⟨unitsP, unitsN⟩
      unfold leftActionApplier
      cases action.predActions.find g.type with
      | none => exact ⟨ihPos unitsP, ihNeg unitsN⟩
      | some bits =>
          simp only
          split_ifs
          · exact ihPos unitsP
          · exact ihNeg unitsN

/-- The leaf of a packet is the one of the packet with the actions, its units put
after the actions. -/
theorem leftActionApplier_leafAt {action : ActionUnit} (exact : ExactSet action.predActions)
    (x : Packet) : ∀ {d : Diagram T}, d.AllFields ExactKnown →
      (leftActionApplier action d).leafAt x =
        { sets := (d.leafAt (action.predActions.apply x)).sets.map (seqActions action)
          flowSettings := (d.leafAt (action.predActions.apply x)).flowSettings
          mapleTree := default } := by
  intro d
  induction d with
  | leaf l => exact fun _ => rfl
  | node g pos neg ihPos ihNeg =>
      rintro ⟨knownG, knownP, knownN⟩
      unfold leftActionApplier
      have value := FieldSet.apply_apply action.predActions x g.type
      cases found : action.predActions.find g.type with
      | none =>
          have unchanged : (action.predActions.apply x).test g = x.test g := by
            have absent : action.predActions.entry g.type = none := found
            rw [Packet.test, Packet.test, value]
            simp [FieldSet.get, absent]
          simp only [Diagram.leafAt_node, unchanged, ihPos knownP, ihNeg knownN]
          split <;> rfl
      | some bits =>
          -- the packet gets the value of the action, whatever it was
          have known := exact g.type bits found
          rw [FieldSet.get_of_entry found] at value
          have has : (action.predActions.apply x).test g = true ↔ bits = g.bits := by
            rw [Packet.test_iff, MaskedBits.exact_matches knownG.1, value,
              MaskedBits.eq_exactly known, MaskedBits.exactly_write]
            constructor
            · intro same
              have all : g.bits = .exactly g.bits.value := MaskedBits.eq_exactly knownG.1
              rw [all, same]
            · intro same
              rw [← same]
              rfl
          simp only [Diagram.leafAt_node, has]
          split_ifs
          · exact ihPos knownP
          · exact ihNeg knownN

theorem leftActionApplier_unitsAt {action : ActionUnit} (exact : ExactSet action.predActions)
    (x : Packet) {d : Diagram T} (known : d.AllFields ExactKnown) :
    (leftActionApplier action d).unitsAt x =
      (d.unitsAt (action.predActions.apply x)).map (seqActions action) := by
  rw [Diagram.unitsAt, leftActionApplier_leafAt exact x known]
  rfl

/-! ## Sequential composition -/

/-- The settings of a leaf whose units are followed by the settings of another
diagram. -/
def sequentialSettings (units : Multiset ActionUnit) (first : FlowSettings)
    (second : Packet → FlowSettings) (x : Packet) : FlowSettings :=
  if units.card = 0 then {}
  else (units.map fun action => second (action.predActions.apply x)).fold FlowSettings.inter first

/-- The settings of a sequence are not lowered by the default. -/
theorem sequentialSettings_default {units : Multiset ActionUnit} {first : FlowSettings}
    {second : Packet → FlowSettings} {x : Packet} (range : first.hardTimeout ≤ durationMax) :
    (sequentialSettings units first second x).inter {} = sequentialSettings units first second x := by
  unfold sequentialSettings
  split_ifs with nothing
  · rfl
  · refine FlowSettings.inter_default ?_ ((FlowSettings.fold_hardTimeout _ _).trans range)
    obtain ⟨action, mem⟩ := Multiset.exists_mem_of_ne_zero (mt Multiset.card_eq_zero.mpr nothing)
    obtain ⟨rest, rfl⟩ := Multiset.exists_cons_of_mem mem
    rw [Multiset.map_cons, Multiset.fold_cons_left]
    exact min_le_right _ _

/-- Every unit of a leaf applied to a diagram, added to what is there. -/
theorem foldlM_parallelComposition {rhs : Diagram T} (known : rhs.AllFields ExactKnown) :
    ∀ {units : List ActionUnit} {start : Diagram T},
      (∀ unit ∈ units, ExactSet unit.predActions) → start.AllFields ExactKnown →
      ∃ d, units.foldlM
          (fun result action => parallelComposition result (leftActionApplier action rhs)) start =
            some d ∧
        d.AllFields ExactKnown ∧
        (∀ Q Q' : ActionUnit → Prop,
          (∀ action unit, Q action → Q' unit → Q' (seqActions action unit)) →
          (∀ unit ∈ units, Q unit) → rhs.AllUnits Q' → start.AllUnits Q' → d.AllUnits Q') ∧
        ∀ x, (d.unitsAt x =
            start.unitsAt x + (units : Multiset ActionUnit).bind fun action =>
              (rhs.unitsAt (action.predActions.apply x)).map (seqActions action)) ∧
          (d.leafAt x).flowSettings =
            ((units : Multiset ActionUnit).map fun action =>
              (rhs.leafAt (action.predActions.apply x)).flowSettings).fold FlowSettings.inter
                (start.leafAt x).flowSettings
  | [], start, _, fields => ⟨start, rfl, fields, fun _ _ _ _ _ units => units, fun x => by simp⟩
  | action :: units, start, exact, fields => by
      obtain ⟨exactHead, exactTail⟩ := List.forall_mem_cons.mp exact
      have fieldsA : (leftActionApplier action rhs).AllFields ExactKnown :=
        leftActionApplier_fields action known
      obtain ⟨middle, result, fieldsM, unitsM, leavesM⟩ := composes fields fieldsA
      obtain ⟨d, resultD, fieldsD, unitsD, leavesD⟩ :=
        foldlM_parallelComposition known exactTail fieldsM
      refine ⟨d, ?_, fieldsD, ?_, fun x => ⟨?_, ?_⟩⟩
      · rw [List.foldlM_cons, result]
        exact resultD
      · intro Q Q' kept unitsL unitsR unitsS
        obtain ⟨head, tail⟩ := List.forall_mem_cons.mp unitsL
        refine unitsD Q Q' kept tail unitsR (unitsM Q' unitsS ?_)
        exact leftActionApplier_units (fun unit => kept action unit head) unitsR
      · rw [(leavesD x).1, leavesM x, leftActionApplier_unitsAt exactHead x known,
          ← Multiset.cons_coe, Multiset.cons_bind, add_assoc]
      · rw [(leavesD x).2, parallelComposition_settings result fields fieldsA x,
          leftActionApplier_leafAt exactHead x known, ← Multiset.cons_coe, Multiset.map_cons,
          Multiset.fold_cons'_right]

/-- What the sequential composition of two diagrams is: at the leaf of a packet, each
unit of the first is followed by those of the second for what the unit makes of the
packet. -/
structure Sequenced (lhs rhs d : Diagram T) : Prop where
  fields : d.AllFields ExactKnown
  units : ∀ Q Q' : ActionUnit → Prop,
    (∀ action unit, Q action → Q' unit → Q' (seqActions action unit)) →
    lhs.AllUnits Q → rhs.AllUnits Q' → d.AllUnits Q'
  unitsAt : ∀ x, d.unitsAt x = (lhs.unitsAt x).bind fun action =>
    (rhs.unitsAt (action.predActions.apply x)).map (seqActions action)
  settings : ∀ x, (lhs.leafAt x).flowSettings.hardTimeout ≤ durationMax →
    (d.leafAt x).flowSettings = sequentialSettings (lhs.unitsAt x) (lhs.leafAt x).flowSettings
      (fun y => (rhs.leafAt y).flowSettings) x

theorem sequenced {rhs : Diagram T} (known : rhs.AllFields ExactKnown) :
    ∀ {lhs : Diagram T}, lhs.AllFields ExactKnown →
      lhs.AllUnits (fun unit => ExactSet unit.predActions) →
      ∃ d, sequentialComposition lhs rhs = some d ∧ Sequenced lhs rhs d := by
  intro lhs
  induction lhs with
  | leaf l =>
      intro _ exact
      rw [sequentialComposition]
      by_cases nothing : l.sets = []
      · have none : ∀ x, (Diagram.leaf l).unitsAt x = 0 := fun x => by
          simp [Diagram.unitsAt, nothing]
        refine ⟨.leaf .stop, by simp [nothing], trivial, fun _ Q' _ _ _ => stop_units Q',
          fun x => ?_, fun x _ => ?_⟩
        · rw [none x]
          rfl
        · rw [sequentialSettings, none x, if_pos Multiset.card_zero]
          rfl
      · rw [if_neg (by simpa using nothing)]
        have fieldsStart : (Diagram.leaf (T := T)
            { flowSettings := l.flowSettings, mapleTree := default }).AllFields ExactKnown := trivial
        obtain ⟨d, result, fields, units, leaves⟩ :=
          foldlM_parallelComposition known exact fieldsStart
        refine ⟨d, result, fields, fun Q Q' kept unitsL unitsR => ?_, fun x => ?_,
          fun x _ => ?_⟩
        · exact units Q Q' kept unitsL unitsR fun _ mem => absurd mem List.not_mem_nil
        · exact (leaves x).1.trans (zero_add _)
        · rw [sequentialSettings, if_neg]
          · exact (leaves x).2
          · exact fun none => nothing (by simpa [Diagram.unitsAt] using none)
  | node f pos neg ihPos ihNeg =>
      rintro ⟨knownF, knownP, knownN⟩ ⟨exactP, exactN⟩
      obtain ⟨one, resultP, seqP⟩ := ihPos knownP exactP
      obtain ⟨two, resultN, seqN⟩ := ihNeg knownN exactN
      have fieldsP : (restrictTrue f one).AllFields ExactKnown :=
        restrictTrue_fields knownF seqP.fields
      have fieldsN : (restrictFalse f two).AllFields ExactKnown :=
        restrictFalse_fields knownF seqN.fields
      obtain ⟨d, result, fields, units, leaves⟩ := composes fieldsP fieldsN
      refine ⟨d, ?_, fields, fun Q Q' kept unitsL unitsR => ?_, fun x => ?_, fun x range => ?_⟩
      · rw [sequentialComposition, resultP, resultN]
        exact result
      · exact units Q' (restrictTrue_units f (seqP.units Q Q' kept unitsL.1 unitsR))
          (restrictFalse_units f (seqN.units Q Q' kept unitsL.2 unitsR))
      · rw [restricted_unitsAt knownF seqP.fields seqN.fields x (leaves x), Diagram.unitsAt_node,
          seqP.unitsAt, seqN.unitsAt]
        split_ifs <;> rfl
      · rw [parallelComposition_settings result fieldsP fieldsN, restrictTrue_leafAt knownF x seqP.fields,
          restrictFalse_leafAt knownF x seqN.fields]
        rw [Diagram.leafAt_node] at range
        rw [Diagram.unitsAt_node, Diagram.leafAt_node]
        split_ifs at range ⊢
        · rw [seqP.settings x range]
          exact sequentialSettings_default range
        · rw [seqN.settings x range, FlowSettings.inter_comm]
          exact sequentialSettings_default range

theorem sequentialComposition_unexplored {rhs : Diagram T} : ∀ {lhs d : Diagram T},
    sequentialComposition lhs rhs = some d → d.Unexplored := by
  intro lhs d eq
  cases lhs with
  | leaf l =>
      rw [sequentialComposition] at eq
      split at eq
      · obtain rfl := Option.some.inj eq
        rfl
      · exact Run.foldlM_keeps (fun _ _ _ _ result _ => parallelComposition_unexplored result) eq rfl
  | node f pos neg =>
      obtain ⟨one, -, rest⟩ := Option.bind_eq_some_iff.mp eq
      obtain ⟨two, -, rest⟩ := Option.bind_eq_some_iff.mp rest
      exact parallelComposition_unexplored rest

/-- What the units of both diagrams have, and a sequence of two such units, all units of the
sequential composition have. -/
theorem sequentialComposition_units {Q : ActionUnit → Prop}
    (kept : ∀ action unit, Q action → Q unit → Q (seqActions action unit)) {rhs : Diagram T}
    (unitsR : rhs.AllUnits Q) : ∀ {lhs d : Diagram T}, sequentialComposition lhs rhs = some d →
      lhs.AllUnits Q → d.AllUnits Q := by
  intro lhs
  induction lhs with
  | leaf l =>
      intro d eq unitsL
      rw [sequentialComposition] at eq
      split at eq
      · obtain rfl := Option.some.inj eq
        exact stop_units Q
      · refine Run.foldlM_keeps (fun action mem start next result unitsS => ?_) eq
          fun _ mem => absurd mem List.not_mem_nil
        have applied : (leftActionApplier action rhs).AllUnits Q :=
          leftActionApplier_units (fun unit => kept action unit (unitsL action mem)) unitsR
        exact parallelComposition_units result unitsS applied
  | node f pos neg ihPos ihNeg =>
      rintro d eq ⟨unitsP, unitsN⟩
      obtain ⟨one, resultP, rest⟩ := Option.bind_eq_some_iff.mp eq
      obtain ⟨two, resultN, rest⟩ := Option.bind_eq_some_iff.mp rest
      exact parallelComposition_units rest (restrictTrue_units f (ihPos resultP unitsP))
        (restrictFalse_units f (ihNeg resultN unitsN))

/-! ## Negation -/

theorem negationComposition_fields {P : Field → Prop} :
    ∀ {d : Diagram T}, d.AllFields P → (negationComposition d).AllFields P := by
  intro d
  induction d with
  | leaf l => exact fun _ => trivial
  | node f pos neg ihPos ihNeg =>
      exact fun ⟨knownF, knownP, knownN⟩ => ⟨knownF, ihPos knownP, ihNeg knownN⟩

theorem negationComposition_units {Q : ActionUnit → Prop} (empty : Q (.ofActions ∅))
    (d : Diagram T) : (negationComposition d).AllUnits Q := by
  induction d with
  | leaf l =>
      intro unit mem
      by_cases nothing : l.sets = []
      · obtain rfl : unit = .ofActions ∅ := by simpa [nothing] using mem
        exact empty
      · simp [nothing] at mem
  | node f pos neg ihPos ihNeg => exact ⟨ihPos, ihNeg⟩

theorem negationComposition_leafAt (x : Packet) (d : Diagram T) :
    (negationComposition d).leafAt x =
      { sets := if (d.leafAt x).sets.isEmpty then [.ofActions ∅] else []
        flowSettings := (d.leafAt x).flowSettings
        mapleTree := default } := by
  induction d with
  | leaf l => rfl
  | node f pos neg ihPos ihNeg =>
      rw [negationComposition, Diagram.leafAt_node, Diagram.leafAt_node, ihPos, ihNeg]
      split_ifs <;> rfl

theorem negationComposition_unexplored (d : Diagram T) : (negationComposition d).Unexplored := by
  induction d with
  | leaf l => rfl
  | node f pos neg ihPos ihNeg => exact ⟨ihPos, ihNeg⟩

end

end Drunos.Retic
