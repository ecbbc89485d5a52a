/-
# Drunos.Retic.Retests — types that are tested again

A parallel composition of two tests of one type puts the positive side of the lesser value
over the negative side of the greater. If that has a third test of the type, a packet of
which the value is known is asked for another one (`Retests`).

For diagrams that do not do so themselves this is the only way: their composition tests no type
again below a passed test of it exactly if none of its calls retests
(`parallelComposition_once_iff`). All else the compiler does keeps it (`compile_once`).
-/
import Drunos.Retic.TranslatorTable
import Mathlib.Logic.Relation

namespace Drunos.Retic

open Drunos.Oxm

set_option autoImplicit false

section

variable [OxmTypes] {T : Type} [Inhabited T]

/-! ## Calls -/

/-- The calls `parallel_composition` makes of itself. -/
def parallelCalls : Diagram T × Diagram T → List (Diagram T × Diagram T)
  | (.leaf _, .leaf _) => []
  | (.node _ pos neg, .leaf r) => [(pos, .leaf r), (neg, .leaf r)]
  | (.leaf l, .node f pos neg) => [(.node f pos neg, .leaf l)]
  | (.node f pos neg, .node g pos' neg') =>
      if f = g then [(pos, pos'), (neg, neg')]
      else if f.type = g.type then
        if f.bits.value.toNat < g.bits.value.toNat then [(pos, neg'), (neg, .node g pos' neg')]
        else [(.node g pos' neg', .node f pos neg)]
      else if compareTypes f.type g.type > 0 then
        [(pos, .node g pos' neg'), (neg, .node g pos' neg')]
      else [(.node g pos' neg', .node f pos neg)]

/-- The positive side of a test comes over another test of its type. -/
def Retests : Diagram T × Diagram T → Prop
  | (.node f _ _, .node g _ neg') =>
      f.type = g.type ∧ f.bits.value.toNat < g.bits.value.toNat ∧
        ¬neg'.AllFields fun h => h.type ≠ f.type
  | _ => False

/-- Of all calls that follow from the one none retests. -/
def Clean (lhs rhs : Diagram T) : Prop :=
  ∀ call, Relation.ReflTransGen (fun call call' => call' ∈ parallelCalls call) (lhs, rhs) call →
    ¬Retests call

omit [Inhabited T] in
/-- What holds of no call that follows, by the calls made at once. -/
theorem follows_iff {bad : Diagram T × Diagram T → Prop} {call : Diagram T × Diagram T} :
    (∀ call', Relation.ReflTransGen (fun call call' => call' ∈ parallelCalls call) call call' →
      ¬bad call') ↔
    ¬bad call ∧ ∀ first ∈ parallelCalls call, ∀ call',
      Relation.ReflTransGen (fun call call' => call' ∈ parallelCalls call) first call' → ¬bad call' := by
  constructor
  · intro clean
    exact ⟨clean _ .refl, fun first mem call' later => clean call' (.head mem later)⟩
  · rintro ⟨here, below⟩ call' reached
    rcases Relation.ReflTransGen.cases_head reached with rfl | ⟨first, mem, later⟩
    · exact here
    · exact below first mem call' later

omit [Inhabited T] in
theorem clean_iff {lhs rhs : Diagram T} : Clean lhs rhs ↔
    ¬Retests (lhs, rhs) ∧ ∀ call ∈ parallelCalls (lhs, rhs), Clean call.1 call.2 :=
  follows_iff

omit [Inhabited T] in
theorem parallelCalls_same (f : Field) (pos neg pos' neg' : Diagram T) :
    parallelCalls (.node f pos neg, .node f pos' neg') = [(pos, pos'), (neg, neg')] := by
  rw [parallelCalls, if_pos rfl]

omit [Inhabited T] in
theorem parallelCalls_before {f g : Field} (before : Before f g) (pos neg pos' neg' : Diagram T) :
    parallelCalls (.node f pos neg, .node g pos' neg') =
      [(pos, if f.type = g.type then neg' else .node g pos' neg'), (neg, .node g pos' neg')] := by
  rw [parallelCalls, if_neg before.ne]
  rcases before with ⟨same, lt⟩ | ⟨ne, lt⟩
  · rw [if_pos same, if_pos lt, if_pos same]
  · rw [if_neg ne, if_pos lt, if_neg ne]

omit [Inhabited T] in
/-- Tests in the wrong order, or in none, are swapped. -/
theorem parallelCalls_swap {f g : Field} (ne : f ≠ g) (not : ¬Before f g) (pos neg pos' neg' : Diagram T) :
    parallelCalls (.node f pos neg, .node g pos' neg') =
      [(.node g pos' neg', .node f pos neg)] := by
  rw [parallelCalls, if_neg ne]
  split_ifs with same value type
  · exact absurd (.inl ⟨same, value⟩) not
  · rfl
  · exact absurd (.inr ⟨same, type⟩) not
  · rfl

omit [Inhabited T] in
theorem clean_leaves (l r : Leaf T) : Clean (.leaf l) (.leaf r) := by
  rw [clean_iff]
  exact ⟨fun none => none, fun call mem => absurd mem List.not_mem_nil⟩

omit [Inhabited T] in
theorem clean_node_leaf {f : Field} {pos neg : Diagram T} {r : Leaf T} :
    Clean (.node f pos neg) (.leaf r) ↔ Clean pos (.leaf r) ∧ Clean neg (.leaf r) := by
  have none : ¬Retests (Diagram.node f pos neg, .leaf r) := fun none => none
  rw [clean_iff, and_iff_right none, parallelCalls, List.forall_mem_cons, List.forall_mem_singleton]

omit [Inhabited T] in
theorem clean_leaf_node {f : Field} {pos neg : Diagram T} {l : Leaf T} :
    Clean (.leaf l) (.node f pos neg) ↔ Clean (.node f pos neg) (.leaf l) := by
  have none : ¬Retests (Diagram.leaf l, .node f pos neg) := fun none => none
  rw [clean_iff, and_iff_right none, parallelCalls, List.forall_mem_singleton]

omit [Inhabited T] in
theorem clean_same {f : Field} {pos neg pos' neg' : Diagram T} :
    Clean (.node f pos neg) (.node f pos' neg') ↔ Clean pos pos' ∧ Clean neg neg' := by
  rw [clean_iff, and_iff_right fun retests => Nat.lt_irrefl _ retests.2.1]
  rw [parallelCalls_same, List.forall_mem_cons, List.forall_mem_singleton]

omit [Inhabited T] in
theorem clean_before {f g : Field} (before : Before f g) {pos neg pos' neg' : Diagram T} :
    Clean (.node f pos neg) (.node g pos' neg') ↔
      (f.type = g.type → neg'.AllFields fun h => h.type ≠ f.type) ∧
        Clean pos (if f.type = g.type then neg' else .node g pos' neg') ∧
          Clean neg (.node g pos' neg') := by
  rw [clean_iff]
  refine and_congr ?_ ?_
  · constructor
    · intro not same
      by_contra again
      rcases before with ⟨-, lt⟩ | ⟨ne, -⟩
      · exact not ⟨same, lt, again⟩
      · exact ne same
    · exact fun others retests => retests.2.2 (others retests.1)
  · rw [parallelCalls_before before, List.forall_mem_cons, List.forall_mem_singleton]

omit [Inhabited T] in
theorem clean_after {f g : Field} (after : Before g f) {pos neg pos' neg' : Diagram T} :
    Clean (.node f pos neg) (.node g pos' neg') ↔ Clean (.node g pos' neg') (.node f pos neg) := by
  have clean : ¬Retests (Diagram.node f pos neg, .node g pos' neg') := by
    rintro ⟨same, lt, -⟩
    exact after.asymm (.inl ⟨same, lt⟩)
  rw [clean_iff, and_iff_right clean, parallelCalls_swap after.ne.symm after.asymm,
    List.forall_mem_singleton]

/-! ## Parallel composition -/

/-- In order, and no type is tested again below a passed test of it. -/
structure OrderedOnce (d : Diagram T) : Prop where
  known : KnownOrdered d
  once : d.Once

namespace OrderedOnce

variable {f g : Field} {pos neg : Diagram T}

omit [Inhabited T] in
theorem positive (ordered : OrderedOnce (.node f pos neg)) : OrderedOnce pos where
  known := ⟨ordered.known.1.2.1, ordered.known.2.2.1⟩
  once := ordered.once.2.1

omit [Inhabited T] in
theorem negative (ordered : OrderedOnce (.node f pos neg)) : OrderedOnce neg where
  known := ⟨ordered.known.1.2.2, ordered.known.2.2.2⟩
  once := ordered.once.2.2

end OrderedOnce

theorem Before.typeCode_le {f g : Field} (known : ExactKnown f) (known' : ExactKnown g)
    (before : Before f g) : typeCode f.type ≤ typeCode g.type := by
  rcases before with ⟨same, -⟩ | ⟨-, lt⟩
  · rw [same]
  · exact Nat.le_of_lt ((compareTypes_pos known.2 known'.2).mp lt)

omit [Inhabited T] in
/-- After a test of another type none of this type comes. -/
theorem others_after {f g : Field} {pos neg : Diagram T} (knownF : ExactKnown f)
    (before : Before f g) (ne : f.type ≠ g.type) (known : KnownOrdered (.node g pos neg)) :
    (Diagram.node g pos neg).AllFields fun h => h.type ≠ f.type := by
  have lt : typeCode f.type < typeCode g.type := by
    rcases before with ⟨same, -⟩ | ⟨-, lt⟩
    · exact absurd same ne
    · exact (compareTypes_pos knownF.2 known.1.1.2).mp lt
  have after {h : Field} (knownH : ExactKnown h) (later : Before g h) : h.type ≠ f.type := by
    intro same
    have le := later.typeCode_le known.1.1 knownH
    rw [same] at le
    exact absurd lt (Nat.not_lt.mpr le)
  refine ⟨ne.symm, (known.1.2.1.and known.2.1.1).mono ?_, (known.1.2.2.and known.2.1.2).mono ?_⟩
  · exact fun h ⟨knownH, later⟩ => after knownH later
  · exact fun h ⟨knownH, later⟩ => after knownH later

/-- A first test of a type stays, if it comes before all of the other diagram. -/
theorem parallelComposition_first {g : Field} {lhs pos neg d : Diagram T}
    (before : lhs.AllFields (Before g)) (result : parallelComposition lhs (.node g pos neg) = some d) :
    ∃ p n, d = .node g p n := by
  cases lhs with
  | leaf l =>
      rw [parallelComposition_leaf_node, parallelComposition_node_leaf] at result
      obtain ⟨p, -, result⟩ := Option.bind_eq_some_iff.mp result
      obtain ⟨n, -, result⟩ := Option.bind_eq_some_iff.mp result
      exact ⟨p, n, (Option.some.inj result).symm⟩
  | node f pos' neg' =>
      rw [parallelComposition_after before.1, parallelComposition_before before.1] at result
      obtain ⟨p, -, result⟩ := Option.bind_eq_some_iff.mp result
      obtain ⟨n, -, result⟩ := Option.bind_eq_some_iff.mp result
      exact ⟨p, n, (Option.some.inj result).symm⟩

theorem once_node_leaf {f : Field} {pos neg d : Diagram T} {r : Leaf T}
    (left : OrderedOnce (.node f pos neg)) (right : OrderedOnce (.leaf r))
    (result : parallelComposition (.node f pos neg) (.leaf r) = some d)
    (ihPos : ∀ p, parallelComposition pos (.leaf r) = some p → (p.Once ↔ Clean pos (.leaf r)))
    (ihNeg : ∀ n, parallelComposition neg (.leaf r) = some n → (n.Once ↔ Clean neg (.leaf r))) :
    d.Once ↔ Clean (.node f pos neg) (.leaf r) := by
  rw [parallelComposition_node_leaf] at result
  obtain ⟨p, resultP, result⟩ := Option.bind_eq_some_iff.mp result
  obtain ⟨n, resultN, result⟩ := Option.bind_eq_some_iff.mp result
  obtain rfl := Option.some.inj result
  rw [clean_node_leaf, Diagram.Once, ihPos p resultP, ihNeg n resultN]
  exact and_iff_right ((parallelComposition_keeps resultP).fields _ left.once.1 right.known.1)

/-- Two nodes of which the first is tested first, given the compositions theirs is made of. -/
theorem once_before {f g : Field} (before : Before f g) {pos neg pos' neg' d : Diagram T}
    (left : OrderedOnce (.node f pos neg)) (right : OrderedOnce (.node g pos' neg'))
    (result : parallelComposition (.node f pos neg) (.node g pos' neg') = some d)
    (ihPos : ∀ p, parallelComposition pos (if f.type = g.type then neg' else .node g pos' neg') = some p →
      (p.Once ↔ Clean pos (if f.type = g.type then neg' else .node g pos' neg')))
    (ihNeg : ∀ n, parallelComposition neg (.node g pos' neg') = some n →
      (n.Once ↔ Clean neg (.node g pos' neg'))) :
    d.Once ↔ Clean (.node f pos neg) (.node g pos' neg') := by
  rw [parallelComposition_before before] at result
  obtain ⟨p, resultP, result⟩ := Option.bind_eq_some_iff.mp result
  obtain ⟨n, resultN, result⟩ := Option.bind_eq_some_iff.mp result
  obtain rfl := Option.some.inj result
  rw [clean_before before, Diagram.Once, ihPos p resultP, ihNeg n resultN]
  refine and_congr_left fun _ => ?_
  have keeps := parallelComposition_keeps resultP
  by_cases same : f.type = g.type
  · rw [if_pos same] at resultP keeps
    constructor
    · intro others _
      -- the first test of the type on the negative side would stay
      cases neg' with
      | leaf l => trivial
      | node h pos'' neg'' =>
          have knownH := right.known.1.2.2.1
          have beforeH := right.known.2.1.2.1
          by_cases again : h.type = f.type
          · have after : pos.AllFields (Before h) := by
              refine ((left.known.1.2.1.and left.known.2.1.1).and left.once.1).mono ?_
              rintro k ⟨⟨knownK, later⟩, ne⟩
              refine .inr ⟨fun same' => ne (same'.symm.trans again), ?_⟩
              rcases later with ⟨same', -⟩ | ⟨-, lt⟩
              · exact absurd same'.symm ne
              · rwa [again]
            obtain ⟨p', n', rfl⟩ := parallelComposition_first after resultP
            exact absurd again others.1
          · have ne : f.type ≠ h.type := fun same' => again same'.symm
            have type : g.type ≠ h.type := same ▸ ne
            have others := others_after right.known.1.1 beforeH type ⟨right.known.1.2.2, right.known.2.2.2⟩
            rwa [← same] at others
    · exact fun others => keeps.fields _ left.once.1 (others same)
  · rw [if_neg same] at keeps
    refine iff_of_true (keeps.fields _ left.once.1 ?_) fun same' => absurd same' same
    exact others_after left.known.1.1 before same right.known

theorem once_iff_of_size (n : Nat) : ∀ {lhs rhs d : Diagram T}, lhs.size + rhs.size ≤ n →
    OrderedOnce lhs → OrderedOnce rhs → parallelComposition lhs rhs = some d →
      (d.Once ↔ Clean lhs rhs) := by
  induction n with
  | zero =>
      intro lhs rhs d bound
      cases lhs <;> simp [Diagram.size] at bound
  | succ n ih =>
      intro lhs rhs d bound left right result
      cases lhs with
      | leaf l =>
          cases rhs with
          | leaf r =>
              rw [parallelComposition_leaves] at result
              obtain rfl := Option.some.inj result
              exact iff_of_true trivial (clean_leaves l r)
          | node f pos neg =>
              simp only [Diagram.size] at bound
              rw [parallelComposition_leaf_node] at result
              rw [clean_leaf_node]
              exact once_node_leaf right left result
                (fun p => ih (by simp only [Diagram.size]; omega) right.positive left)
                fun n => ih (by simp only [Diagram.size]; omega) right.negative left
      | node f pos neg =>
          cases rhs with
          | leaf r =>
              simp only [Diagram.size] at bound
              exact once_node_leaf left right result
                (fun p => ih (by simp only [Diagram.size]; omega) left.positive right)
                fun n => ih (by simp only [Diagram.size]; omega) left.negative right
          | node g pos' neg' =>
              simp only [Diagram.size] at bound
              by_cases same : f = g
              · subst same
                rw [parallelComposition_same] at result
                obtain ⟨p, resultP, result⟩ := Option.bind_eq_some_iff.mp result
                obtain ⟨m, resultN, result⟩ := Option.bind_eq_some_iff.mp result
                obtain rfl := Option.some.inj result
                rw [clean_same, Diagram.Once, ih (by omega) left.positive right.positive resultP,
                  ih (by omega) left.negative right.negative resultN]
                exact and_iff_right
                  ((parallelComposition_keeps resultP).fields _ left.once.1 right.once.1)
              · rcases before_total left.known.1.1 right.known.1.1 same with before | after
                · refine once_before before left right result (fun p => ?_) fun m =>
                    ih (by simp only [Diagram.size]; omega) left.negative right
                  split
                  · exact ih (by omega) left.positive right.negative
                  · exact ih (by simp only [Diagram.size]; omega) left.positive right
                · rw [parallelComposition_after after] at result
                  rw [clean_after after]
                  refine once_before after right left result (fun p => ?_) fun m =>
                    ih (by simp only [Diagram.size]; omega) right.negative left
                  split
                  · exact ih (by omega) right.positive left.negative
                  · exact ih (by simp only [Diagram.size]; omega) right.positive left

/-- **A parallel composition of diagrams that do not test a type again below a passed test of it does
not do so either, if and only if none of its calls retests.** -/
theorem parallelComposition_once_iff {lhs rhs d : Diagram T} (left : OrderedOnce lhs)
    (right : OrderedOnce rhs) (result : parallelComposition lhs rhs = some d) :
    d.Once ↔ Clean lhs rhs :=
  once_iff_of_size _ le_rfl left right result

/-! ## What else the compiler does -/

theorem restrictTrue_once {f : Field} (known : ExactKnown f) {d : Diagram T} :
    OrderedOnce d → (restrictTrue f d).Once := by
  induction d with
  | leaf l => exact fun _ => ⟨trivial, trivial, trivial⟩
  | node g pos neg ihPos ihNeg =>
      intro ordered
      have ⟨othersP, onceP, onceN⟩ := ordered.once
      unfold restrictTrue
      split_ifs with same sameType lt
      · subst same
        exact ⟨othersP, onceP, trivial⟩
      · exact ihNeg ordered.negative
      · have before : Before f g := .inr ⟨Ne.symm sameType, lt⟩
        exact ⟨others_after known before (Ne.symm sameType) ordered.known, ordered.once, trivial⟩
      · exact ⟨restrictTrue_fields (P := fun h => h.type ≠ g.type) (Ne.symm sameType) othersP, ihPos ordered.positive,
          ihNeg ordered.negative⟩

theorem restrictFalse_once {f : Field} {d : Diagram T} :
    OrderedOnce d → (restrictFalse f d).Once := by
  induction d with
  | leaf l => exact fun _ => ⟨trivial, trivial, trivial⟩
  | node g pos neg ihPos ihNeg =>
      intro ordered
      have ⟨othersP, onceP, onceN⟩ := ordered.once
      unfold restrictFalse
      split_ifs with same sameType less lt
      · exact ⟨trivial, trivial, onceN⟩
      · exact ⟨othersP, onceP, ihNeg ordered.negative⟩
      · exact ⟨trivial, trivial, ordered.once⟩
      · exact ⟨trivial, trivial, ordered.once⟩
      · exact ⟨restrictFalse_fields (P := fun h => h.type ≠ g.type) (Ne.symm sameType) othersP, ihPos ordered.positive,
          ihNeg ordered.negative⟩

theorem leftActionApplier_once (action : ActionUnit) {d : Diagram T} :
    d.Once → (leftActionApplier action d).Once := by
  induction d with
  | leaf l => exact fun _ => trivial
  | node g pos neg ihPos ihNeg =>
      rintro ⟨others, onceP, onceN⟩
      unfold leftActionApplier
      split
      · exact ⟨leftActionApplier_fields action others, ihPos onceP, ihNeg onceN⟩
      · split_ifs
        · exact ihPos onceP
        · exact ihNeg onceN

theorem negationComposition_once {d : Diagram T} : d.Once → (negationComposition d).Once := by
  induction d with
  | leaf l => exact fun _ => trivial
  | node f pos neg ihPos ihNeg =>
      exact fun ⟨others, onceP, onceN⟩ =>
        ⟨negationComposition_fields others, ihPos onceP, ihNeg onceN⟩

/-! ## The compiler -/

/-- The parallel compositions a sequential composition makes. -/
inductive SequentialCall (rhs : Diagram T) : Diagram T → Diagram T → Diagram T → Prop where
  | action {l : Leaf T} {before after : List ActionUnit} {action : ActionUnit} {result : Diagram T}
      (sets : l.sets = before ++ action :: after)
      (made : before.foldlM
        (fun result action => parallelComposition result (leftActionApplier action rhs))
        (.leaf { flowSettings := l.flowSettings, mapleTree := default }) = some result) :
      SequentialCall rhs (.leaf l) result (leftActionApplier action rhs)
  | positive {f : Field} {pos neg a b : Diagram T} (call : SequentialCall rhs pos a b) :
      SequentialCall rhs (.node f pos neg) a b
  | negative {f : Field} {pos neg a b : Diagram T} (call : SequentialCall rhs neg a b) :
      SequentialCall rhs (.node f pos neg) a b
  | node {f : Field} {pos neg one two : Diagram T} (first : sequentialComposition pos rhs = some one)
      (second : sequentialComposition neg rhs = some two) :
      SequentialCall rhs (.node f pos neg) (restrictTrue f one) (restrictFalse f two)

/-- The parallel compositions the compilation of a policy makes. -/
inductive CompileCall : Policy → Diagram T → Diagram T → Prop where
  | negation {p : Policy} {a b : Diagram T} (call : CompileCall p a b) : CompileCall (.negation p) a b
  | sequentialLeft {p q : Policy} {a b : Diagram T} (call : CompileCall p a b) :
      CompileCall (.sequential p q) a b
  | sequentialRight {p q : Policy} {a b : Diagram T} (call : CompileCall q a b) :
      CompileCall (.sequential p q) a b
  | sequential {p q : Policy} {d1 d2 a b : Diagram T} (one : compile p = some d1)
      (two : compile q = some d2) (call : SequentialCall d2 d1 a b) : CompileCall (.sequential p q) a b
  | parallelLeft {p q : Policy} {a b : Diagram T} (call : CompileCall p a b) :
      CompileCall (.parallel p q) a b
  | parallelRight {p q : Policy} {a b : Diagram T} (call : CompileCall q a b) :
      CompileCall (.parallel p q) a b
  | parallel {p q : Policy} {d1 d2 : Diagram T} (one : compile p = some d1)
      (two : compile q = some d2) : CompileCall (.parallel p q) d1 d2

/-- No parallel composition of the compilation retests. -/
def CompilesClean (T : Type) [Inhabited T] (p : Policy) : Prop :=
  ∀ a b : Diagram T, CompileCall p a b → Clean a b

theorem parallelComposition_orderedOnce {lhs rhs d : Diagram T} (left : OrderedOnce lhs)
    (right : OrderedOnce rhs) (clean : Clean lhs rhs) (result : parallelComposition lhs rhs = some d) :
    OrderedOnce d where
  known := (parallelComposition_keeps result).known left.known right.known
  once := (parallelComposition_once_iff left right result).mpr clean

theorem foldlM_orderedOnce {rhs : Diagram T} (ordered : OrderedOnce rhs) {l : Leaf T}
    (clean : ∀ a b, SequentialCall rhs (.leaf l) a b → Clean a b) :
    ∀ {units before : List ActionUnit} {start d : Diagram T}, l.sets = before ++ units →
      before.foldlM (fun result action => parallelComposition result (leftActionApplier action rhs))
          (.leaf { flowSettings := l.flowSettings, mapleTree := default }) = some start →
        OrderedOnce start →
          units.foldlM (fun result action => parallelComposition result (leftActionApplier action rhs))
              start = some d → OrderedOnce d := by
  intro units
  induction units with
  | nil => exact fun _ _ start result => Option.some.inj result ▸ start
  | cons action units ih =>
      intro before start d sets made startOnce result
      rw [List.foldlM_cons] at result
      obtain ⟨middle, first, rest⟩ := Option.bind_eq_some_iff.mp result
      have applied : OrderedOnce (leftActionApplier action rhs) :=
        { known := ⟨leftActionApplier_fields action ordered.known.1,
            leftActionApplier_ordered action ordered.known.2⟩
          once := leftActionApplier_once action ordered.once }
      have middleOnce := parallelComposition_orderedOnce startOnce applied
        (clean _ _ (.action sets made)) first
      refine @ih (before ++ [action]) middle d (by simp [sets]) ?_ middleOnce rest
      rw [List.foldlM_append, made]
      simpa using first

theorem sequentialComposition_orderedOnce {rhs : Diagram T} (ordered : OrderedOnce rhs)
    {lhs : Diagram T} : ∀ {d : Diagram T}, lhs.AllFields ExactKnown →
      (∀ a b, SequentialCall rhs lhs a b → Clean a b) → sequentialComposition lhs rhs = some d →
        OrderedOnce d := by
  induction lhs with
  | leaf l =>
      intro d _ clean result
      rw [sequentialComposition] at result
      split_ifs at result
      · obtain rfl := Option.some.inj result
        exact ⟨⟨trivial, trivial⟩, trivial⟩
      · have start : OrderedOnce (.leaf { flowSettings := l.flowSettings, mapleTree := default } : Diagram T) :=
          ⟨⟨trivial, trivial⟩, trivial⟩
        have before : l.sets = [] ++ l.sets := rfl
        exact foldlM_orderedOnce ordered clean before rfl start result
  | node f pos neg ihPos ihNeg =>
      rintro d ⟨knownF, knownP, knownN⟩ clean result
      rw [sequentialComposition] at result
      obtain ⟨one, resultP, result⟩ := Option.bind_eq_some_iff.mp result
      obtain ⟨two, resultN, result⟩ := Option.bind_eq_some_iff.mp result
      have first := ihPos knownP (fun a b call => clean a b (.positive call)) resultP
      have second := ihNeg knownN (fun a b call => clean a b (.negative call)) resultN
      refine parallelComposition_orderedOnce ⟨⟨?_, ?_⟩, ?_⟩ ⟨⟨?_, ?_⟩, ?_⟩
        (clean _ _ (.node resultP resultN)) result
      · exact restrictTrue_fields knownF first.known.1
      · exact restrictTrue_ordered knownF first.known.1 first.known.2
      · exact restrictTrue_once knownF first
      · exact restrictFalse_fields knownF second.known.1
      · exact restrictFalse_ordered knownF second.known.1 second.known.2
      · exact restrictFalse_once second

theorem compile_orderedOnce {p : Policy} : ∀ {d : Diagram T}, p.AllFields ExactKnown →
    CompilesClean T p → compile p = some d → OrderedOnce d := by
  induction p with
  | filter f =>
      intro d known _ result
      obtain rfl := Option.some.inj result
      exact ⟨compile_ordered known rfl, trivial, trivial, trivial⟩
  | negation p ih =>
      intro d known clean result
      have ordered := compile_ordered (T := T) (p := .negation p) known result
      obtain ⟨inner, resultI, result⟩ := Option.bind_eq_some_iff.mp result
      obtain rfl := Option.some.inj result
      have once := (ih known (fun a b call => clean a b (.negation call)) resultI).once
      exact ⟨ordered, negationComposition_once once⟩
  | sequential p q ihP ihQ =>
      rintro d ⟨knownP, knownQ⟩ clean result
      obtain ⟨d1, resultP, result⟩ := Option.bind_eq_some_iff.mp result
      obtain ⟨d2, resultQ, result⟩ := Option.bind_eq_some_iff.mp result
      have right := ihQ knownQ (fun a b call => clean a b (.sequentialRight call)) resultQ
      exact sequentialComposition_orderedOnce right (compile_ordered knownP resultP).1
        (fun a b call => clean a b (.sequential resultP resultQ call)) result
  | parallel p q ihP ihQ =>
      rintro d ⟨knownP, knownQ⟩ clean result
      obtain ⟨d1, resultP, result⟩ := Option.bind_eq_some_iff.mp result
      obtain ⟨d2, resultQ, result⟩ := Option.bind_eq_some_iff.mp result
      have left := ihP knownP (fun a b call => clean a b (.parallelLeft call)) resultP
      have right := ihQ knownQ (fun a b call => clean a b (.parallelRight call)) resultQ
      exact parallelComposition_orderedOnce left right (clean _ _ (.parallel resultP resultQ)) result
  | _ =>
      intro d known _ result
      have ordered := compile_ordered known result
      obtain rfl := Option.some.inj result
      exact ⟨ordered, trivial⟩

/-- **A compiled diagram is in order, and tests no type again below a passed test of it if no parallel
composition of its compilation retests.** For one parallel composition of diagrams that do not
test types again, this is all that matters. -/
theorem compile_once {p : Policy} (free : p.FunctionFree) (known : p.AllFields ExactKnown) :
    ∃ d : Diagram T, compile p = some d ∧ d.Ordered ∧ (CompilesClean T p → d.Once) ∧
      ∀ (q r : Policy) (d1 d2 : Diagram T), p = .parallel q r → compile q = some d1 →
        compile r = some d2 → d1.Once → d2.Once → (d.Once ↔ Clean d1 d2) := by
  obtain ⟨d, result, -⟩ := compile_spec (T := T) free.functionsLast known
  refine ⟨d, result, (compile_ordered known result).2,
    fun clean => (compile_orderedOnce known clean result).once, ?_⟩
  rintro q r d1 d2 rfl resultQ resultR once once'
  have composed : parallelComposition d1 d2 = some d := by
    rw [compile, resultQ, resultR] at result
    exact result
  exact parallelComposition_once_iff ⟨compile_ordered known.1 resultQ, once⟩
    ⟨compile_ordered known.2 resultR, once'⟩ composed

end

section

open scoped Drunos.Oxm.OpenflowBasic

/-- Packets of one VLAN go to one port. -/
def forward (vlan : BitVec 12) (port : BitVec 32) : Policy :=
  .sequential (.filter (.exactly vlanVid vlan)) (.modify (.exactly outPort port))

def forwardLeaf (port : BitVec 32) : Leaf Unit :=
  { sets := [.ofActions (fieldSetUnion ∅ (.ofField (.exactly outPort port)))], mapleTree := () }

theorem sequential_forward (port : BitVec 32) :
    sequentialComposition (.leaf (.single (.ofActions ∅)))
      (.leaf (.single (.ofActions (.ofField (.exactly outPort port))))) =
        some (.leaf (forwardLeaf port)) := by
  simp only [sequentialComposition, Leaf.single, List.isEmpty_cons, Bool.false_eq_true, if_false,
    List.foldlM, leftActionApplier, parallelComposition_leaves, Option.bind_eq_bind,
    Option.bind_some, Option.pure_def]
  rfl

theorem compile_forward (vlan : BitVec 12) (port : BitVec 32) :
    compile (forward vlan port) =
      some (.node (.exactly vlanVid vlan) (.leaf (forwardLeaf port)) (.leaf .stop)) := by
  calc compile (forward vlan port)
    _ = (sequentialComposition (.leaf (.single (.ofActions ∅)))
          (.leaf (.single (.ofActions (.ofField (.exactly outPort port)))))).bind fun one =>
            parallelComposition (restrictTrue (.exactly vlanVid vlan) one)
              (restrictFalse (.exactly vlanVid vlan) (.leaf .stop)) := rfl
    _ = some (.node (.exactly vlanVid vlan) (.leaf (forwardLeaf port)) (.leaf .stop)) := by
        rw [sequential_forward, Option.bind_some, restrictTrue, restrictFalse, parallelComposition_same,
          parallelComposition_leaves, parallelComposition_leaves]
        rfl

theorem before_vlan {v w : BitVec 12} (lt : v.toNat < w.toNat) :
    Before (.exactly vlanVid v) (.exactly vlanVid w) := .inl ⟨rfl, lt⟩

theorem parallel_chain {f g : Field} (before : Before f g) (same : f.type = g.type)
    (l l' : Leaf Unit) (pos neg : Diagram Unit) :
    parallelComposition (.node f (.leaf l) (.leaf l')) (.node g pos neg) = do
      let positive ← parallelComposition (.leaf l) neg
      let negative ← parallelComposition (.node g pos neg) (.leaf l')
      return .node f positive negative := by
  rw [parallelComposition_before before, if_pos same, parallelComposition_leaf_node]

/-- Two VLANs, for two ports. -/
def forwardTwo : Policy := .parallel (forward 1 1) (forward 2 2)

def forwardTwoDiagram : Diagram Unit :=
  .node (.exactly vlanVid 1) (.leaf (forwardLeaf 1))
    (.node (.exactly vlanVid 2) (.leaf (forwardLeaf 2)) (.leaf .stop))

theorem compile_forwardTwo : compile forwardTwo = some forwardTwoDiagram := by
  simp only [forwardTwo, compile, compile_forward, Option.bind_eq_bind, Option.bind_some]
  rw [parallel_chain (before_vlan (v := 1) (w := 2) (by decide)) rfl]
  simp only [parallelComposition_node_leaf, parallelComposition_leaves, Option.bind_eq_bind,
    Option.bind_some, Option.pure_def]
  rfl

theorem forward_known (vlan : BitVec 12) (port : BitVec 32) : (forward vlan port).AllFields ExactKnown :=
  ⟨⟨Field.exactly_exact _ _, .inl rfl⟩, Field.exactly_exact _ _, .inr rfl⟩

theorem clean_leaf {d : Diagram Unit} (r : Leaf Unit) : Clean d (.leaf r) := by
  induction d with
  | leaf l => exact clean_leaves l r
  | node f pos neg ihPos ihNeg => exact clean_node_leaf.mpr ⟨ihPos, ihNeg⟩

theorem forward_clean (vlan : BitVec 12) (port : BitVec 32) :
    CompilesClean Unit (forward vlan port) := by
  intro a b call
  cases call with
  | sequentialLeft call => cases call
  | sequentialRight call => cases call
  | sequential one two call =>
      obtain rfl := Option.some.inj one
      obtain rfl := Option.some.inj two
      cases call with
      | positive call =>
          obtain ⟨sets, made⟩ := call
          exact clean_leaf _
      | negative call =>
          obtain ⟨sets, made⟩ := call
          exact clean_leaf _
      | node first second =>
          obtain rfl := Option.some.inj ((sequential_forward port).symm.trans first)
          obtain rfl := Option.some.inj second
          exact clean_same.mpr ⟨clean_leaf _, clean_leaf _⟩

theorem forwardTwo_clean : CompilesClean Unit forwardTwo := by
  intro a b call
  cases call with
  | parallelLeft call => exact forward_clean _ _ a b call
  | parallelRight call => exact forward_clean _ _ a b call
  | parallel one two =>
      rw [compile_forward] at one two
      obtain rfl := Option.some.inj one
      obtain rfl := Option.some.inj two
      refine (clean_before (before_vlan (v := 1) (w := 2) (by decide))).mpr ⟨fun _ => trivial, ?_, ?_⟩
      · split
        · exact clean_leaf _
        · exact absurd rfl ‹_›
      · exact clean_leaf_node.mpr (clean_leaf _)

/-- The test of VLAN 1 comes first, and on its positive side VLAN 3 is tested again. -/
def doubleTest : Policy := .parallel (forward 1 1) (.parallel (forward 2 2) (forward 3 3))

def doubleTestDiagram : Diagram Unit :=
  .node (.exactly vlanVid 1)
    (.node (.exactly vlanVid 3)
      (.leaf { sets := (forwardLeaf 3).sets ++ (forwardLeaf 1).sets, mapleTree := () })
      (.leaf (forwardLeaf 1)))
    (.node (.exactly vlanVid 2) (.leaf (forwardLeaf 2))
      (.node (.exactly vlanVid 3) (.leaf (forwardLeaf 3)) (.leaf .stop)))

theorem compile_doubleTest : compile doubleTest = some doubleTestDiagram := by
  simp only [doubleTest, compile, compile_forward, Option.bind_eq_bind, Option.bind_some]
  rw [parallel_chain (before_vlan (v := 2) (w := 3) (by decide)) rfl, parallelComposition_leaves,
    parallelComposition_node_leaf, parallelComposition_leaves, parallelComposition_leaves]
  simp only [Option.bind_eq_bind, Option.bind_some, Option.pure_def]
  rw [parallel_chain (before_vlan (v := 1) (w := 2) (by decide)) rfl, parallelComposition_leaf_node]
  simp only [parallelComposition_node_leaf, parallelComposition_leaves, Option.bind_eq_bind,
    Option.bind_some, Option.pure_def]
  rfl

/-- Two VLANs, for two ports. -/
theorem compile_once_forward :
    ∃ d : Diagram Unit, compile forwardTwo = some d ∧ d.Ordered ∧ d.Once ∧
      ∀ (q r : Policy) (d1 d2 : Diagram Unit), forwardTwo = .parallel q r → compile q = some d1 →
        compile r = some d2 → d1.Once → d2.Once → (d.Once ↔ Clean d1 d2) := by
  obtain ⟨d, result, ordered, once, composed⟩ := compile_once (T := Unit) (p := forwardTwo)
    ⟨⟨trivial, trivial⟩, trivial, trivial⟩ ⟨forward_known 1 1, forward_known 2 2⟩
  exact ⟨d, result, ordered, once forwardTwo_clean, composed⟩

/-- Below the test of VLAN 1 that is passed VLAN 3 is tested. -/
theorem doubleTest_retests :
    ¬∀ p : Policy, p.FunctionFree → p.AllFields ExactKnown →
      ∃ d : Diagram Unit, compile p = some d ∧ d.Ordered ∧ d.Once := by
  intro all
  obtain ⟨d, result, -, once⟩ := all doubleTest
    ⟨⟨trivial, trivial⟩, ⟨trivial, trivial⟩, trivial, trivial⟩
    ⟨forward_known 1 1, forward_known 2 2, forward_known 3 3⟩
  rw [compile_doubleTest] at result
  obtain rfl := Option.some.inj result
  exact once.1.1 rfl

end

end Drunos.Retic
