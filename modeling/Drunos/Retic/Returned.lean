/-
# Drunos.Retic.Returned — the policies that packet functions return

For a full packet every unit of a leaf has a trace, whose result is the policy its
function returns for the packet, after the modifications made on the way
(`ActionUnit.returned`). The policy a traversal goes on with is the sum over the units
of the leaf (`Leaf.returned`).

`Leads` is what a traversal comes to in the end, without trees and priorities: the leaf
of the packet if it has no function, or else what the returned policy leads to. On a
diagram that was just compiled the traversal returns that leaf (`traverse_fresh`).
-/
import Drunos.Retic.Traverser
import Drunos.Retic.Leaves

namespace Drunos.Retic

open Drunos.Oxm Drunos.Theory Drunos.Theory.Exploration Drunos.Maple

set_option autoImplicit false

variable [OxmTypes]

/-! ## Traces of a full packet -/

/-- A traced run ends, with the trace of a traceable packet, and its modifications are
those that the packet has seen. -/
theorem runTraced_packet {R : Type} (h : Handler R) : ∀ (x : Packet) (cache mods : FieldSet),
    ∃ r, runTraced h x cache mods = some r ∧ r.calls = (traceable h x cache).calls.map Prod.fst ∧
      r.result = (traceable h x cache).result ∧
      ∀ x₀, mods.apply x₀ = x → r.mods.apply x₀ = (traceable h x cache).packet := by
  induction h with
  | ret p => exact fun x cache mods => ⟨_, rfl, rfl, rfl, fun x₀ applied => applied⟩
  | modify patch next ih =>
      intro x cache mods
      obtain ⟨r, result, calls, returned, packet⟩ :=
        ih (x.modify patch) (cache.modify patch) (mods.modify patch)
      refine ⟨r, result, calls, returned, fun x₀ applied => packet x₀ ?_⟩
      rw [FieldSet.apply_modify, applied]
  | load m next ih =>
      intro x cache mods
      let read := MaskedBits.read (x m.type) m.bits
      let unexplored := read.without (cache.load m.type m.bits).mask
      show ∃ r, (if unexplored.wildcard then runTraced (next read.value) x cache mods
          else (runTraced (next read.value) x (cache.modify ⟨m.type, unexplored⟩) mods).bind
            fun rest => some (rest.told (.load ⟨m.type, unexplored⟩))) = some r ∧ _
      rw [traceable]
      split_ifs with known
      · exact ih read.value x cache mods
      · obtain ⟨r, result, calls, returned, packet⟩ :=
          ih read.value x (cache.modify ⟨m.type, unexplored⟩) mods
        refine ⟨r.told (.load ⟨m.type, unexplored⟩), ?_, congrArg (List.cons _) calls, returned, packet⟩
        rw [result]
        rfl
  | test need next ih =>
      intro x cache mods
      let read := MaskedBits.read (x need.type) need.bits.mask
      let explored := cache.load need.type need.bits.mask
      let unexplored := read.without explored.mask
      let answer := decide (unexplored.Compatible need.bits)
      show ∃ r, (if explored.Compatible need.bits then
          if unexplored.wildcard then runTraced (next true) x cache mods
          else (runTraced (next answer) x
            (if answer then cache.modify ⟨need.type, unexplored⟩ else cache) mods).bind
              fun rest => some (rest.told (.test ⟨need.type, need.bits.restrict unexplored.mask⟩ answer))
        else runTraced (next false) x cache mods) = some r ∧ _
      rw [traceable]
      by_cases compatible : explored.Compatible need.bits
      · rw [if_pos compatible, if_pos compatible]
        by_cases known : unexplored.wildcard = true
        · rw [if_pos known, if_pos known]
          exact ih true x cache mods
        · rw [if_neg known, if_neg known]
          obtain ⟨r, result, calls, returned, packet⟩ := ih answer x
            (if answer then cache.modify ⟨need.type, unexplored⟩ else cache) mods
          refine ⟨r.told (.test ⟨need.type, need.bits.restrict unexplored.mask⟩ answer), ?_,
            congrArg (List.cons _) calls, returned, packet⟩
          rw [result]
          rfl
      · rw [if_neg compatible, if_neg compatible]
        exact ih false x cache mods

/-- The trace of a unit on a full packet. -/
def ActionUnit.trace (x : Packet) (unit : ActionUnit) : Trace := (traceUnit x unit).getD ⟨[], .stop⟩

/-- The policy of the trace. -/
def ActionUnit.returned (x : Packet) (unit : ActionUnit) : Policy := (unit.trace x).result

/-- The trace of a unit: what a traceable packet tells, and what the function returns under
the modifications. -/
theorem traceUnit_packet (x : Packet) (unit : ActionUnit) :
    ∃ r, runTraced unit.handler x ∅ ∅ = some r ∧ traceUnit x unit = some (unit.trace x) ∧
      (unit.trace x).values = (traceable unit.handler x ∅).calls.map Prod.fst ∧
      unit.returned x = withMods r.mods (unit.handler.run x).1 ∧
      r.mods.apply x = (unit.handler.run x).2 := by
  obtain ⟨r, result, calls, returned, packet⟩ := runTraced_packet unit.handler x ∅ ∅
  have run := traceable_run unit.handler (FieldSet.apply_empty x)
  have traced : traceUnit x unit = some ⟨r.calls, withMods r.mods r.result⟩ := by
    rw [traceUnit, result]
    rfl
  refine ⟨r, result, ?_, ?_, ?_, ?_⟩
  · rw [ActionUnit.trace, traced]
    rfl
  · rw [ActionUnit.trace, traced]
    exact calls
  · rw [ActionUnit.returned, ActionUnit.trace, traced, ← run, ← returned]
    rfl
  · rw [packet x (FieldSet.apply_empty x), ← run]

theorem getTraces_packet (x : Packet) (l : Leaf TraceTree) :
    getTraces x l = some (l.sets.map (·.trace x)) := by
  rw [getTraces]
  induction l.sets with
  | nil => rfl
  | cons unit units ih =>
      obtain ⟨-, -, traced, -⟩ := traceUnit_packet x unit
      rw [List.mapM_cons, traced, ih]
      rfl

/-! ## Sums of policies -/

namespace Policy

/-- The sum a merged trace has as its result. -/
def sum : List Policy → Policy
  | [] => stop
  | p :: ps => ps.foldl add p

theorem sum_induction {P : Policy → Prop} (stop : P .stop) (add : ∀ p q, P p → P q → P (p.add q)) :
    ∀ {ps : List Policy}, (∀ p ∈ ps, P p) → P (sum ps)
  | [], _ => stop
  | p :: ps, all => by
      obtain ⟨head, tail⟩ := List.forall_mem_cons.mp all
      show P (ps.foldl Policy.add p)
      clear all
      induction ps generalizing p with
      | nil => exact head
      | cons q ps ih =>
          obtain ⟨next, tail⟩ := List.forall_mem_cons.mp tail
          exact ih (p.add q) (add p q head next) tail

end Policy

/-! ## Where a packet leads -/

/-- What a leaf says: its actions and settings. -/
structure Verdict where
  sets : List ActionUnit
  flowSettings : FlowSettings

def Leaf.verdict {T : Type} (l : Leaf T) : Verdict := ⟨l.sets, l.flowSettings⟩

/-- The policy a traversal goes on with. -/
def Verdict.returned (x : Packet) (v : Verdict) : Policy :=
  .sum (v.sets.map fun unit => unit.returned x)

def Verdict.hasBody (v : Verdict) : Bool := v.sets.any fun unit => unit.body.isSome

/-- From what the leaf of a packet says to what the leaf says that is found in the end. -/
inductive Leads (x : Packet) : Verdict → Verdict → Prop where
  | plain {v : Verdict} (plain : v.hasBody = false) : Leads x v v
  | returned {v w : Verdict} {d : Fdd} (body : v.hasBody = true)
      (compiled : compile (v.returned x) = some d) (rest : Leads x (d.leafAt x).verdict w) :
      Leads x v w

/-- Diagrams that differ in priorities only. -/
def Diagram.Alike {T : Type} : Diagram T → Diagram T → Prop
  | leaf l, leaf l' => l.verdict = l'.verdict ∧ l.mapleTree = l'.mapleTree
  | node f pos neg, node f' pos' neg' => f = f' ∧ Alike pos pos' ∧ Alike neg neg'
  | _, _ => False

theorem Diagram.Alike.refl {T : Type} (d : Diagram T) : d.Alike d := by
  induction d with
  | leaf l => exact ⟨rfl, rfl⟩
  | node f pos neg ihPos ihNeg => exact ⟨rfl, ihPos, ihNeg⟩

/-- A translation writes priorities only. -/
theorem translate_alike {T : Type} (d : Diagram T) : ∀ (match' : FieldSet) (s : Priorities),
    d.Alike (translate d match' s).diagram := by
  induction d with
  | leaf l => exact fun _ _ => ⟨rfl, rfl⟩
  | node f pos neg ihPos ihNeg => exact fun _ _ => ⟨rfl, ihPos _ _, ihNeg _ _⟩

/-! ## Fresh diagrams -/

section

variable {x : Packet} (backend : Bool)

theorem traverse_node (f : Field) (pos neg : Fdd) (match' : FieldSet) :
    traverse backend x (.node f pos neg) match' =
      if x.test f then do
        let r ← traverse backend x pos (match'.modify f)
        return { r with diagram := .node f r.diagram neg }
      else do
        let r ← traverse backend x neg match'
        return { r with diagram := .node f pos r.diagram } := by
  rw [traverse]
  rfl

/-- The traces of a leaf with a function, on a tree that was not explored. -/
theorem augment_unexplored {p : Policy} {d : Fdd} (compiled : compile p = some d)
    (calls : List TraceCall) : ∀ a : Augmention, ∃ r : Augmented,
      augment backend p calls a .unexplored = pure r ∧ d.Alike r.leaf.katDiagram := by
  induction calls with
  | nil =>
      intro a
      simp only [augment, finish, compiled]
      refine ⟨_, rfl, ?_⟩
      cases backend
      · exact .refl d
      · exact translate_alike d _ _
  | cons call calls ih =>
      intro a
      cases call with
      | load f =>
          obtain ⟨r, result, alike⟩ := ih (a.load f)
          rw [augment, result]
          exact ⟨_, rfl, alike⟩
      | test f b =>
          obtain ⟨r, result, alike⟩ := ih (a.test f b)
          rw [augment, result]
          exact ⟨_, rfl, alike⟩

theorem mergeTrace_packet {l : Leaf TraceTree} (body : l.hasBody = true) (cache : FieldSet) :
    mergeTrace (l.sets.map (·.trace x)) cache =
      pure ⟨mergeCalls ((l.sets.map (·.trace x)).flatMap (·.values)) cache, l.verdict.returned x⟩ := by
  show _ = pure (Trace.mk _ (.sum (l.sets.map fun unit => unit.returned x)))
  cases units : l.sets with
  | nil => simp [Leaf.hasBody, units] at body
  | cons unit rest =>
      have results : (rest.map (·.trace x)).foldl (fun sum trace => sum.add trace.result)
          (unit.trace x).result = .sum ((unit :: rest).map fun unit => unit.returned x) := by
        rw [List.foldl_map, List.map_cons]
        exact List.foldl_map.symm
      rw [← results]
      rfl

/-- The functions of a leaf on a full packet: what their merged trace is to add to the tree. -/
theorem explore_packet {l : Leaf TraceTree} (body : l.hasBody = true) (match' : FieldSet) :
    explore backend x l match' =
      augment backend (l.verdict.returned x)
        (mergeCalls ((l.sets.map (·.trace x)).flatMap (·.values)) match')
        { match', prioDown := l.prioDown, prioUp := l.prioUp } l.mapleTree.node := by
  rw [explore, getTraces_packet, ofPacket, pure_bind, mergeTrace_packet body, pure_bind]

/-- A traversal returns what it returns from the leaf of the packet on. -/
theorem traverse_leafAt (d : Fdd) : ∀ match' : FieldSet, ∃ match'' : FieldSet, ∀ r,
    traverse backend x (.leaf (d.leafAt x)) match'' = pure r →
      ∃ r', traverse backend x d match' = pure r' ∧ r'.leaf = r.leaf := by
  induction d with
  | leaf l => exact fun match' => ⟨match', fun r result => ⟨r, result, rfl⟩⟩
  | node f pos neg ihPos ihNeg =>
      intro match'
      rw [Diagram.leafAt_node, traverse_node]
      split_ifs
      · obtain ⟨match'', found⟩ := ihPos (match'.modify f)
        refine ⟨match'', fun r result => ?_⟩
        obtain ⟨r', result', same⟩ := found r result
        refine ⟨{ r' with diagram := .node f r'.diagram neg }, ?_, same⟩
        rw [result', pure_bind]
      · obtain ⟨match'', found⟩ := ihNeg match'
        refine ⟨match'', fun r result => ?_⟩
        obtain ⟨r', result', same⟩ := found r result
        refine ⟨{ r' with diagram := .node f pos r'.diagram }, ?_, same⟩
        rw [result', pure_bind]

theorem Diagram.Alike.leafAt {T : Type} {d d' : Diagram T} (alike : d.Alike d') (x : Packet) :
    (d.leafAt x).verdict = (d'.leafAt x).verdict ∧
      (d.leafAt x).mapleTree = (d'.leafAt x).mapleTree := by
  induction d generalizing d' with
  | leaf l =>
      cases d' with
      | leaf l' => exact alike
      | node => exact alike.elim
  | node f pos neg ihPos ihNeg =>
      cases d' with
      | leaf => exact alike.elim
      | node f' pos' neg' =>
          obtain ⟨rfl, alikeP, alikeN⟩ := alike
          rw [Diagram.leafAt_node, Diagram.leafAt_node]
          split_ifs
          · exact ihPos alikeP
          · exact ihNeg alikeN

/-- **Where no tree was explored, the traversal finds where the packet leads.** -/
theorem traverse_fresh {v w : Verdict} (leads : Leads x v w) :
    ∀ {d : Fdd}, (d.leafAt x).verdict = v → (d.leafAt x).mapleTree = default →
      ∀ match' : FieldSet, ∃ r, traverse backend x d match' = pure r ∧ r.leaf.verdict = w := by
  induction leads with
  | plain plain =>
      rintro d rfl _ match'
      obtain ⟨match'', found⟩ := traverse_leafAt backend (x := x) d match'
      obtain ⟨r, result, same⟩ := found _ (traverse_plain plain)
      exact ⟨r, result, congrArg Leaf.verdict same⟩
  | @returned v w d₁ body compiled rest ih =>
      rintro d rfl fresh match'
      have body : (d.leafAt x).hasBody = true := body
      obtain ⟨match'', found⟩ := traverse_leafAt backend (x := x) d match'
      obtain ⟨a, augmented, alike⟩ := augment_unexplored backend compiled
        (mergeCalls (((d.leafAt x).sets.map (·.trace x)).flatMap (·.values)) match'')
        ⟨match'', (d.leafAt x).prioDown, (d.leafAt x).prioUp⟩
      have explored : explore backend x (d.leafAt x) match'' = pure a := by
        rw [explore_packet backend body, fresh]
        exact augmented
      have unexplored : (d₁.leafAt x).mapleTree = default :=
        Diagram.AllLeaves.leafAt x (compile_unexplored compiled)
      obtain ⟨verdict, tree⟩ := alike.leafAt x
      obtain ⟨r, result, same⟩ := ih verdict.symm (tree ▸ unexplored)
        (fieldSetUnion a.match' (Found.match' ⟨[], none⟩))
      have whole := traverse_miss body (by rw [fresh]; rfl) rfl explored result
      obtain ⟨r', result', same'⟩ := found _ whole
      exact ⟨r', result', by rw [same']; exact same⟩

end

end Drunos.Retic
