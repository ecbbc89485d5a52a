/-
# Drunos.Retic.Augmentions — what an augmention changes

A trace is put into a tree along the nodes that are met (`walked`). A test of the trace that
meets a leaf or a load node is passed over (`skipped`), where a load that meets a node of
another kind is inconsistent. So the new diagram is for the packets that satisfy what was
walked, and for these only (`augment_reached`): it is for the packets that satisfy the trace
if what was walked decides the rest.

A diagram is kept by a pointer, and `finish` makes a new one, so the statements are for
whatever the new diagram holds or comes to hold (`Augmented.holding`).
-/
import Drunos.Retic.Sound

namespace Drunos.Retic

open Drunos.Oxm Drunos.Theory Drunos.Theory.Exploration Drunos.Maple

set_option autoImplicit false

section

variable [OxmTypes]

/-- Where a node of the trace leads: nowhere for a test at a leaf or a load node. -/
def descend : TraceCall → TraceNode → Option TraceNode
  | .load field, .load _ cases => some (Tree.caseAt (valueBits field) cases)
  | .load _, _ => some .unexplored
  | .test _ _, .unexplored => some .unexplored
  | .test _ result, .test _ _ pos neg => some (if result then pos else neg)
  | .test _ _, _ => none

/-- The nodes of the trace at which the augmention goes down the tree. -/
def walked : List TraceCall → TraceNode → List TraceCall
  | [], _ => []
  | call :: trace, t =>
      match descend call t with
      | some below => call :: walked trace below
      | none => walked trace t

/-- The tests that meet a leaf or a load node. -/
def skipped : List TraceCall → TraceNode → List TraceCall
  | [], _ => []
  | call :: trace, t =>
      match descend call t with
      | some below => skipped trace below
      | none => call :: skipped trace t

def Augmented.withLeaf (a : Augmented) (l : LeafNode Fdd) : TraceNode := Tree.put l a.path a.node

/-- The tree, when the new diagram is `d`. -/
def Augmented.holding (a : Augmented) (d : Fdd) : TraceNode :=
  a.withLeaf { a.leaf with katDiagram := d }

/-- Packets that satisfy the trace find the new diagram; other packets find what they found
before, with the same match if there is anything to find. -/
structure ChangesOnly (trace : List TraceCall) (t t' : TraceNode) (l : LeafNode Fdd) : Prop where
  satisfying : ∀ x : Packet, (∀ node ∈ trace, Holds x node) →
    ∃ found, findLeaf x t' = pure found ∧ found.leaf = some l
  others : ∀ x : Packet, (¬∀ node ∈ trace, Holds x node) → ∃ before after,
    findLeaf x t = pure before ∧ findLeaf x t' = pure after ∧ after.leaf = before.leaf ∧
      (before.leaf ≠ none → after.match' = before.match')

theorem mem_walked_or_skipped (trace : List TraceCall) : ∀ (t : TraceNode) (call : TraceCall),
    call ∈ trace ↔ call ∈ walked trace t ∨ call ∈ skipped trace t := by
  induction trace with
  | nil => exact fun t call => by simp [walked, skipped]
  | cons first rest ih =>
      intro t call
      rw [walked, skipped, List.mem_cons]
      cases descend first t with
      | some below => rw [ih below call, List.mem_cons, or_assoc]
      | none => rw [ih t call, List.mem_cons, or_left_comm]

theorem satisfies_trace_iff (trace : List TraceCall) (t : TraceNode) (x : Packet) :
    (∀ node ∈ trace, Holds x node) ↔
      (∀ node ∈ walked trace t, Holds x node) ∧ ∀ node ∈ skipped trace t, Holds x node := by
  simp only [mem_walked_or_skipped trace t, or_imp, forall_and]

/-! ## The tree afterwards -/

/-- A packet satisfies a load if it answers with its value. -/
theorem holds_load_iff {x : Packet} {f : Field} :
    Holds x (.load f) ↔ (answers x).load f.mask = valueBits f := by
  constructor
  · intro has
    have read := MaskedBits.eq_read (Packet.test_iff.mp has)
    show (MaskedBits.read (x f.type) f.bits.mask).value.toNat = f.bits.value.toNat
    rw [← read]
  · intro value
    have same : TraceCall.load f = .load (x.load f.mask) :=
      call_of_load (by rw [TraceCall.asked, value])
    injection same with same
    rw [same]
    exact Packet.test_iff.mpr (MaskedBits.read_matches _ _)

/-- What packets find: the new leaf where the calls hold, and elsewhere what there was. -/
def Overwritten (trace : List TraceCall) (t t' : TraceNode) (l : LeafNode Fdd) : Prop :=
  ∀ x : Packet,
    ((∀ node ∈ trace, Holds x node) → ∃ path, t'.reached (answers x) = some (path, l)) ∧
      ((¬∀ node ∈ trace, Holds x node) → t'.reached (answers x) = t.reached (answers x))

section

variable {trace : List TraceCall} {below below' : TraceNode} {l : LeafNode Fdd}

theorem Overwritten.load {f : Field} {cases cases' : List (Nat × TraceNode)}
    (overwritten : Overwritten trace below below' l)
    (here : Tree.caseAt (valueBits f) cases = below)
    (after : ∀ v, Tree.caseAt v cases' = if valueBits f = v then below' else Tree.caseAt v cases) :
    Overwritten (.load f :: trace) (.load f.mask cases) (.load f.mask cases') l := by
  intro x
  obtain ⟨new, same⟩ := overwritten x
  rw [List.forall_mem_cons, holds_load_iff, Tree.reached_load, Tree.reached_load, after]
  by_cases value : (answers x).load f.mask = valueBits f
  · rw [if_pos value.symm, value, here, and_iff_right rfl]
    refine ⟨fun all => ?_, fun some => by rw [same some]⟩
    obtain ⟨path, reached⟩ := new all
    rw [reached]
    exact ⟨_, rfl⟩
  · rw [if_neg (Ne.symm value)]
    exact ⟨fun all => absurd all.1 value, fun _ => rfl⟩

theorem Overwritten.positive {f : Field} {note : Unit} {neg : TraceNode}
    (overwritten : Overwritten trace below below' l) :
    Overwritten (.test f true :: trace) (.test f note below neg) (.test f note below' neg) l := by
  intro x
  obtain ⟨new, same⟩ := overwritten x
  have answer : (answers x).test f = x.test f := rfl
  rw [List.forall_mem_cons, Tree.reached_test, Tree.reached_test, answer]
  show ((x.test f = true ∧ _) → _) ∧ (¬(x.test f = true ∧ _) → _)
  cases has : x.test f with
  | true =>
      rw [and_iff_right rfl, if_pos rfl, if_pos rfl]
      refine ⟨fun all => ?_, fun some => by rw [same some]⟩
      obtain ⟨path, reached⟩ := new all
      rw [reached]
      exact ⟨_, rfl⟩
  | false => exact ⟨fun all => absurd all.1 Bool.false_ne_true, fun _ => rfl⟩

theorem Overwritten.negative {f : Field} {note : Unit} {pos : TraceNode}
    (overwritten : Overwritten trace below below' l) :
    Overwritten (.test f false :: trace) (.test f note pos below) (.test f note pos below') l := by
  intro x
  obtain ⟨new, same⟩ := overwritten x
  have answer : (answers x).test f = x.test f := rfl
  rw [List.forall_mem_cons, Tree.reached_test, Tree.reached_test, answer]
  show ((x.test f = false ∧ _) → _) ∧ (¬(x.test f = false ∧ _) → _)
  cases has : x.test f with
  | true => exact ⟨fun all => absurd all.1.symm Bool.false_ne_true, fun _ => rfl⟩
  | false =>
      rw [and_iff_right rfl, if_neg Bool.false_ne_true, if_neg Bool.false_ne_true]
      refine ⟨fun all => ?_, fun some => by rw [same some]⟩
      obtain ⟨path, reached⟩ := new all
      rw [reached]
      exact ⟨_, rfl⟩

/-- An unexplored node is as good as a node below which nothing is explored. -/
theorem Overwritten.of_unexplored {t t' : TraceNode} (overwritten : Overwritten trace t t' l)
    (none : ∀ x : Packet, t.reached (answers x) = none) : Overwritten trace .unexplored t' l := by
  intro x
  obtain ⟨new, same⟩ := overwritten x
  exact ⟨new, fun some => (same some).trans (none x)⟩

end

omit [OxmTypes] in
/-- What a traversal that returns has returned before. -/
theorem Traversal.bind_eq_pure {α β : Type} {t : Traversal α} {f : α → Traversal β} {b : β}
    (result : t >>= f = pure b) : ∃ a, t = pure a ∧ f a = pure b := by
  rcases t with _ | (e | a)
  · cases result
  · cases result
  · exact ⟨a, rfl, result⟩

theorem withLeaf_load (rest : Augmented) (f : Field) (cases : List (Nat × TraceNode))
    (l : LeafNode Fdd) :
    Augmented.withLeaf
        { rest with
          node := .load f.mask (Tree.setCase (valueBits f) rest.node cases)
          path := .load f.mask (valueBits f) :: rest.path } l =
      .load f.mask (Tree.setCase (valueBits f) (rest.withLeaf l) cases) :=
  Tree.put_setCase l f.mask f.mask (valueBits f) rest.path rest.node cases

theorem Overwritten.withCase {f : Field} {trace : List TraceCall} {l : LeafNode Fdd}
    {rest : Augmented} {cases : List (Nat × TraceNode)}
    (below : Overwritten trace (Tree.caseAt (valueBits f) cases) (rest.withLeaf l) l) :
    Overwritten (.load f :: trace) (.load f.mask cases)
      (Augmented.withLeaf
        { rest with
          node := .load f.mask (Tree.setCase (valueBits f) rest.node cases)
          path := .load f.mask (valueBits f) :: rest.path } l) l := by
  rw [withLeaf_load]
  exact below.load rfl fun v => Tree.caseAt_setCase v (valueBits f) (rest.withLeaf l) cases

/-- **An augmention makes the new leaf found where what it walked holds, and nowhere else.** -/
theorem augment_overwritten {backend : Bool} {p : Policy} (l : LeafNode Fdd)
    {trace : List TraceCall} : ∀ {a : Augmention} {t : TraceNode} {r : Augmented},
      augment backend p trace a t = pure r →
        Overwritten (walked trace t) t (r.withLeaf l) l ∧ r.withLeaf r.leaf = r.node := by
  induction trace with
  | nil =>
      intro a t r result
      have here : r.path = [] ∧ r.node = .leaf r.leaf := by
        cases t with
        | test | load => cases result
        | unexplored | leaf =>
            obtain ⟨d, -, result⟩ := Traversal.bind_eq_pure result
            cases result
            exact ⟨rfl, rfl⟩
      rw [Augmented.withLeaf, Augmented.withLeaf, here.1, here.2]
      refine ⟨fun x => ⟨fun _ => ⟨[], rfl⟩, fun none => ?_⟩, rfl⟩
      exact absurd (fun _ mem => absurd mem List.not_mem_nil) none
  | cons call trace ih =>
      intro a t r result
      cases call with
      | load f =>
          cases t with
          | test | leaf => cases result
          | unexplored =>
              obtain ⟨rest, augmented, result⟩ := Traversal.bind_eq_pure result
              cases result
              obtain ⟨below, node⟩ := ih augmented
              have whole : Overwritten (.load f :: walked trace .unexplored) (.load f.mask []) _ l :=
                below.withCase
              refine ⟨whole.of_unexplored fun x => ?_, (withLeaf_load rest f [] _).trans ?_⟩
              · rw [Tree.reached_load]
                rfl
              · rw [node]
                rfl
          | load m cases =>
              rw [augment] at result
              by_cases same : m = f.mask
              · rw [if_pos same] at result
                subst same
                obtain ⟨rest, augmented, result⟩ := Traversal.bind_eq_pure result
                cases result
                obtain ⟨below, node⟩ := ih augmented
                exact ⟨below.withCase, (withLeaf_load rest f cases _).trans (by rw [node])⟩
              · rw [if_neg same] at result
                cases result
      | test f b =>
          cases t with
          | unexplored =>
              obtain ⟨rest, augmented, result⟩ := Traversal.bind_eq_pure result
              cases result
              obtain ⟨below, node⟩ := ih augmented
              cases b with
              | true =>
                  refine ⟨?_, congrArg (Tree.test f () · .unexplored) node⟩
                  refine (below.positive (f := f)).of_unexplored fun x => ?_
                  rw [Tree.reached_test, ite_self]
                  rfl
              | false =>
                  refine ⟨?_, congrArg (Tree.test f () .unexplored ·) node⟩
                  refine (below.negative (f := f)).of_unexplored fun x => ?_
                  rw [Tree.reached_test, ite_self]
                  rfl
          | test need note pos neg =>
              rw [augment] at result
              by_cases same : need = f
              · rw [if_pos same] at result
                subst same
                obtain ⟨rest, augmented, result⟩ := Traversal.bind_eq_pure result
                obtain ⟨below, node⟩ := ih augmented
                cases b with
                | true =>
                    cases result
                    exact ⟨below.positive, congrArg (Tree.test need note · neg) node⟩
                | false =>
                    cases result
                    exact ⟨below.negative, congrArg (Tree.test need note pos ·) node⟩
              · rw [if_neg same] at result
                cases result
          | leaf l => exact ih result
          | load m cases => exact ih result

theorem Overwritten.changesOnly {trace : List TraceCall} {t t' : TraceNode} {l : LeafNode Fdd}
    (overwritten : Overwritten trace t t' l) : ChangesOnly trace t t' l where
  satisfying x all := by
    obtain ⟨path, reached⟩ := (overwritten x).1 all
    obtain ⟨l', leaf, same⟩ := Option.map_eq_some_iff.mp reached
    exact ⟨_, findLeaf_packet x t', leaf.trans (congrArg some (congrArg Prod.snd same))⟩
  others x some := by
    refine ⟨_, _, findLeaf_packet x t, findLeaf_packet x t', ?_⟩
    have same := (overwritten x).2 some
    rw [Tree.reached, Tree.reached] at same
    cases here : t.lookup (answers x) with
    | none =>
        rw [here, Option.map_none, Option.map_eq_none_iff] at same
        exact ⟨same, fun found => absurd rfl found⟩
    | some old =>
        rw [here, Option.map_some] at same
        obtain ⟨l', leaf, same⟩ := Option.map_eq_some_iff.mp same
        obtain ⟨way, rfl⟩ := Prod.mk.inj same
        exact ⟨leaf, fun _ => congrArg (List.foldl noteAnswer ∅) way⟩

/-- **An augmention that completes changes what is found for the packets of the trace and for no
others if and only if what it walked implies what it skipped**, whatever the new diagram is. -/
theorem augment_changesOnly_iff {backend : Bool} {p : Policy} {trace : List TraceCall}
    {a : Augmention} {t : TraceNode} {r : Augmented}
    (completes : augment backend p trace a t = pure r) :
    r.holding r.leaf.katDiagram = r.node ∧
      ((∀ d : Fdd, ChangesOnly trace t (r.holding d) { r.leaf with katDiagram := d }) ↔
        ∀ x : Packet, (∀ node ∈ walked trace t, Holds x node) →
          ∀ node ∈ skipped trace t, Holds x node) := by
  refine ⟨(augment_overwritten r.leaf completes).2, fun changes x walked => ?_, fun decides d => ?_⟩
  · by_contra missed
    -- the packet finds the new diagram, and whatever this is, it is the one from before
    have unsatisfied : ¬∀ node ∈ trace, Holds x node := fun all =>
      missed ((satisfies_trace_iff trace t x).mp all).2
    have old (d : Fdd) : t.lookup (answers x) = some { r.leaf with katDiagram := d } := by
      obtain ⟨before, after, found, found', leaf, -⟩ := (changes d).others x unsatisfied
      rw [findLeaf_packet] at found found'
      cases found
      cases found'
      obtain ⟨path, reached⟩ := ((augment_overwritten _ completes).1 x).1 walked
      obtain ⟨l', new, same⟩ := Option.map_eq_some_iff.mp reached
      obtain ⟨-, rfl⟩ := Prod.mk.inj same
      exact leaf.symm.trans new
    have same := (old (.leaf { sets := [], mapleTree := default })).symm.trans
      (old (.leaf { sets := [.ofActions ∅], mapleTree := default }))
    injection same with same
    injection same with _ same
    injection same with same
    injection same with sets
    cases sets
  · have overwritten := (augment_overwritten { r.leaf with katDiagram := d } completes).1
    refine Overwritten.changesOnly fun x => ?_
    have all : (∀ node ∈ trace, Holds x node) ↔ ∀ node ∈ walked trace t, Holds x node := by
      rw [satisfies_trace_iff trace t x]
      exact ⟨And.left, fun walked => ⟨walked, decides x walked⟩⟩
    rw [all]
    exact overwritten x

end

section

open scoped Drunos.Oxm.OpenflowBasic

/-- The leaf of the policy that changes nothing. -/
def idLeaf : LeafNode Fdd := ⟨.id, .leaf { sets := [.ofActions ∅], mapleTree := default }⟩

def vlanTest (vlan : BitVec 12) (result : Bool) : TraceCall := .test (.exactly vlanVid vlan) result

theorem augment_changesOnly_test :
    let trace := [vlanTest 1#12 false, vlanTest 2#12 true]
    let t : TraceNode := .test (.exactly vlanVid 1#12) () (.leaf idLeaf) .unexplored
    ∃ r, augment false .id trace ⟨∅, 1, 65535⟩ t = pure r ∧
      r.holding r.leaf.katDiagram = r.node ∧
        ((∀ d : Fdd, ChangesOnly trace t (r.holding d) { r.leaf with katDiagram := d }) ↔
          ∀ x : Packet, (∀ node ∈ walked trace t, Holds x node) →
            ∀ node ∈ skipped trace t, Holds x node) := by
  intro trace t
  have completes : augment false .id trace ⟨∅, 1, 65535⟩ t = pure _ := rfl
  exact ⟨_, completes, augment_changesOnly_iff completes⟩

/-- A test is put into a tree that is a leaf: packets of every VLAN get the new diagram. -/
theorem augment_loses_leaf :
    ¬∀ (backend : Bool) (p : Policy) (trace : List TraceCall) (a : Augmention) (t : TraceNode)
      (r : Augmented), augment backend p trace a t = pure r → ChangesOnly trace t r.node r.leaf := by
  intro all
  have changes := all false .id [vlanTest 1#12 true] ⟨∅, 1, 65535⟩ (.leaf ⟨.stop, idLeaf.katDiagram⟩) _ rfl
  have fails : (OpenflowBasic.packet []).test (.exactly vlanVid 1#12) ≠ true := by decide
  obtain ⟨before, after, found, found', same, -⟩ := changes.others (OpenflowBasic.packet [])
    fun all => fails (all _ List.mem_cons_self)
  cases found
  cases found'
  cases same

end

end Drunos.Retic
