/-
# Drunos.Retic.Standing — that the rules of what is stored are installed

When a packet finds its way in the trees nothing is installed for it. Its rule is there because
an earlier packet, that was asked the same and answered the same, had it installed: the diagrams
stored in a tree have the priorities of the trace they end (`spaced`), and the rule of every place
in them is among the calls that were made (`StandsTo`).

`traverse_stands`: handling a packet keeps this, everything it installs is an `Entry` for it, and
the rule of the place it reaches has been installed, by itself or before.
-/
import Drunos.Retic.Rising

namespace Drunos.Retic

open Drunos.Oxm Drunos.Theory PriorityTable Exploration Drunos.Maple

set_option autoImplicit false

variable [OxmTypes]

/-! ## Rules that were installed -/

def Verdict.call (v : Verdict) (match' : FieldSet) (prio : Nat) : BackendCall :=
  match v.actions with
  | none => .installBarrier match' prio
  | some sets => .install match' sets prio v.flowSettings

namespace Place

/-- The rule of the place was installed. -/
def Stands (calls : List BackendCall) (place : Place) : Prop :=
  ∃ match', match'.get = place.match'.get ∧ place.verdict.call match' place.prio ∈ calls

/-- The same but for the order of the match. -/
structure Same (place place' : Place) : Prop where
  verdict : place.verdict = place'.verdict
  match' : place.match'.get = place'.match'.get
  prioDown : place.prioDown = place'.prioDown
  prioUp : place.prioUp = place'.prioUp

theorem Stands.congr {calls : List BackendCall} {place place' : Place} (same : place.Same place')
    (stands : place.Stands calls) : place'.Stands calls := by
  obtain ⟨match', get, mem⟩ := stands
  refine ⟨match', get.trans same.match', ?_⟩
  rwa [prio, ← same.prioDown, ← same.prioUp, ← same.verdict]

theorem Stands.mono {calls calls' : List BackendCall} {place : Place} (stands : place.Stands calls)
    (sub : calls ⊆ calls') : place.Stands calls' := by
  obtain ⟨match', get, mem⟩ := stands
  exact ⟨match', get, sub mem⟩

end Place

/-! ## The leaves of a diagram at their places -/

namespace Diagram

variable {T : Type}

/-- `P` holds of every leaf with its place. -/
def EachLeaf (P : Leaf T → Place → Prop) : Diagram T → FieldSet → Priorities → Prop
  | leaf l, match', s => P l ⟨l.verdict, match', s.prioDown, s.localPrioUp⟩
  | node f pos neg, match', s =>
      EachLeaf P neg match' (s.enter f) ∧ EachLeaf P pos (match'.modify f) (s.enter f).positive

/-- The diagram with another leaf for the packet. -/
def replaceAt (x : Packet) : Diagram T → Diagram T → Diagram T
  | leaf _, new => new
  | node f pos neg, new =>
      if x.test f then node f (replaceAt x pos new) neg else node f pos (replaceAt x neg new)

variable {P Q : Leaf T → Place → Prop}

theorem EachLeaf.mono (weaker : ∀ l place, P l place → Q l place) {d : Diagram T} :
    ∀ {match' : FieldSet} {s : Priorities}, d.EachLeaf P match' s → d.EachLeaf Q match' s := by
  induction d with
  | leaf l => exact weaker _ _
  | node f pos neg ihPos ihNeg => exact fun each => ⟨ihNeg each.1, ihPos each.2⟩

theorem EachLeaf.congr (kept : ∀ l place place', Place.Same place place' → P l place → P l place')
    {d : Diagram T} : ∀ {match' match'' : FieldSet} {s : Priorities}, match'.get = match''.get →
      d.EachLeaf P match' s → d.EachLeaf P match'' s := by
  induction d with
  | leaf l =>
      intro match' match'' s same each
      exact kept l ⟨l.verdict, match', s.prioDown, s.localPrioUp⟩ _ ⟨rfl, same, rfl, rfl⟩ each
  | node f pos neg ihPos ihNeg =>
      intro match' match'' s same each
      refine ⟨ihNeg same each.1, ihPos ?_ each.2⟩
      rw [Knowledge.get_modify, Knowledge.get_modify, same]

theorem EachLeaf.leafAt (x : Packet) {d : Diagram T} : ∀ {match' : FieldSet} {s : Priorities},
    d.EachLeaf P match' s → P (d.leafAt x) (d.placeAt x match' s) := by
  induction d with
  | leaf l => exact id
  | node f pos neg ihPos ihNeg =>
      intro match' s each
      rw [Diagram.leafAt_node, Diagram.placeAt]
      split_ifs
      · exact ihPos each.2
      · exact ihNeg each.1

theorem EachLeaf.replaceAt {x : Packet} {l' : Leaf T} {d : Diagram T} :
    ∀ {match' : FieldSet} {s : Priorities}, d.EachLeaf P match' s →
      l'.verdict = (d.leafAt x).verdict → P l' (d.placeAt x match' s) →
        (d.replaceAt x (leaf l')).EachLeaf P match' s := by
  induction d with
  | leaf l =>
      intro match' s _ verdict here
      show P l' ⟨l'.verdict, match', s.prioDown, s.localPrioUp⟩
      rw [verdict]
      exact here
  | node f pos neg ihPos ihNeg =>
      intro match' s each verdict here
      rw [Diagram.leafAt_node] at verdict
      rw [Diagram.placeAt] at here
      rw [Diagram.replaceAt]
      split_ifs at verdict here ⊢
      · exact ⟨each.1, ihPos each.2 verdict here⟩
      · exact ⟨ihNeg each.1 verdict here, each.2⟩

end Diagram

/-- A traversal of the diagram changes the leaf of the packet, as a traversal of this leaf does. -/
theorem traverse_replaceAt {x : Packet} (backend : Bool) (d : Fdd) :
    ∀ {s : FieldSet} {r : Traversed}, traverse backend x (.leaf (d.leafAt x)) (d.matchAt x s) = pure r →
      traverse backend x d s = pure { r with diagram := d.replaceAt x r.diagram } := by
  induction d with
  | leaf l => exact fun result => result
  | node f pos neg ihPos ihNeg =>
      intro s r result
      rw [Diagram.leafAt_node, Diagram.matchAt] at result
      rw [traverse_node, Diagram.replaceAt]
      by_cases has : x.test f = true
      · rw [if_pos has, if_pos has] at result
        rw [if_pos has, if_pos has, ihPos result]
        rfl
      · rw [if_neg has, if_neg has] at result
        rw [if_neg has, if_neg has, ihNeg result]
        rfl

/-! ## The interval along a program -/

/-- The interval on one side of a test. -/
def Priorities.tested (s : Priorities) (result : Bool) : Priorities :=
  if result then { s with prioDown := ((s.prioUp + s.prioDown) / 2 + 1) % 65536 }
  else { s with prioUp := ((s.prioUp + s.prioDown) / 2 + 65535) % 65536 }

section

variable {R : Type}

/-- The program with the interval its tests leave. -/
def spaced : Prog Mask Nat Field R → Priorities → Prog Mask Nat Field (R × Priorities)
  | .ret r, s => .ret (r, s)
  | .load m next, s => .load m fun v => spaced (next v) s
  | .test f next, s => .test f fun b => spaced (next b) (s.tested b)

theorem step_priorities (a : Augmention) (f : Field) (b : Bool) :
    (a.test f b).priorities = a.priorities.tested b := by
  cases b <;> rfl

theorem spaced_path {trace : List TraceCall} : ∀ {p : Prog Mask Nat Field R} {r : R} {a : Augmention},
    p.Path (trace.map TraceCall.asked) r →
      (spaced p a.priorities).Path (trace.map TraceCall.asked) (r, (a.after trace).priorities) := by
  induction trace with
  | nil =>
      intro p r a follows
      cases follows
      exact .ret _
  | cons call trace ih =>
      intro p r a follows
      cases call with
      | load f =>
          cases follows with
          | load rest => exact .load (ih (a := a.load f) rest)
      | test f b =>
          cases follows with
          | test rest =>
              have later := ih (a := a.test f b) rest
              rw [step_priorities] at later
              exact .test later

theorem spaced_run {x : Packet} {p : Prog Mask Nat Field R} : ∀ {trace : List TraceCall} {a : Augmention},
    p.asked (answers x) = trace.map TraceCall.asked →
      (spaced p a.priorities).run (answers x) = (p.run (answers x), (a.after trace).priorities) := by
  induction p with
  | ret r =>
      intro trace a asked
      obtain rfl := List.map_eq_nil_iff.mp asked.symm
      rfl
  | load m next ih =>
      intro trace a asked
      obtain ⟨call, trace, rfl, head, tail⟩ := List.map_eq_cons_iff.mp asked.symm
      obtain rfl := call_of_load head
      exact ih _ (a := a.load _) tail.symm
  | test f next ih =>
      intro trace a asked
      obtain ⟨call, trace, rfl, head, tail⟩ := List.map_eq_cons_iff.mp asked.symm
      obtain rfl := call_of_test head
      have later := ih _ (a := a.test f ((answers x).test f)) tail.symm
      rw [step_priorities] at later
      exact later

end

/-! ## What stands -/

/-- What is kept of a result: the diagram, standing where the trace has ended. -/
def StoredAt (stands : Fdd → FieldSet → Priorities → Prop) :
    Option (List Policy × Knowledge) × Priorities → LeafNode Fdd → Prop
  | (none, _), _ => False
  | (some (_, κ), s), leaf => ∃ match', match'.get = κ ∧ stands leaf.katDiagram match' s

/-- A leaf has the priorities of its place, its rule was installed, and its tree keeps diagrams that
stand. -/
structure LeafStands (stands : Fdd → FieldSet → Priorities → Prop) (calls : List BackendCall)
    (l : Leaf TraceTree) (place : Place) : Prop where
  priorities : l.prioDown = place.prioDown ∧ l.prioUp = place.prioUp
  rule : place.Stands calls
  tree : Agrees (StoredAt stands)
    (spaced (known (unitsProg l.sets) place.match'.get) place.start.priorities) l.mapleTree.node

/-- Standing to a depth of diagrams in trees. -/
def StandsTo (calls : List BackendCall) : Nat → Fdd → FieldSet → Priorities → Prop
  | 0, _, _, _ => True
  | n + 1, d, match', s => d.EachLeaf (LeafStands (StandsTo calls n) calls) match' s

variable {calls calls' : List BackendCall}

theorem LeafStands.congr {stands : Fdd → FieldSet → Priorities → Prop} (l : Leaf TraceTree)
    (place place' : Place) (same : place.Same place') (here : LeafStands stands calls l place) :
    LeafStands stands calls l place' where
  priorities := same.prioDown ▸ same.prioUp ▸ here.priorities
  rule := here.rule.congr same
  tree := by
    have start : place.start.priorities = place'.start.priorities := by
      show Priorities.mk place.prioDown place.prioUp 0 none =
        Priorities.mk place'.prioDown place'.prioUp 0 none
      rw [same.prioDown, same.prioUp]
    rw [← same.match', ← start]
    exact here.tree

theorem StandsTo.congr {n : Nat} {d : Fdd} {match' match'' : FieldSet} {s : Priorities}
    (same : match'.get = match''.get) (stands : StandsTo calls n d match' s) :
    StandsTo calls n d match'' s := by
  cases n with
  | zero => trivial
  | succ n => exact Diagram.EachLeaf.congr LeafStands.congr same stands

theorem StoredAt.mono {stands stands' : Fdd → FieldSet → Priorities → Prop}
    (weaker : ∀ d match' s, stands d match' s → stands' d match' s)
    (r : Option (List Policy × Knowledge) × Priorities) (leaf : LeafNode Fdd)
    (kept : StoredAt stands r leaf) :
    StoredAt stands' r leaf := by
  obtain ⟨_ | ⟨ps, κ⟩, s⟩ := r
  · exact kept
  · obtain ⟨match', get, here⟩ := kept
    exact ⟨match', get, weaker _ _ _ here⟩

theorem LeafStands.mono {stands stands' : Fdd → FieldSet → Priorities → Prop}
    (weaker : ∀ d match' s, stands d match' s → stands' d match' s) (sub : calls ⊆ calls')
    (l : Leaf TraceTree) (place : Place) (here : LeafStands stands calls l place) :
    LeafStands stands' calls' l place where
  priorities := here.priorities
  rule := here.rule.mono sub
  tree := here.tree.mono (StoredAt.mono weaker)

/-- What was installed stays. -/
theorem StandsTo.mono (sub : calls ⊆ calls') {n : Nat} : ∀ (d : Fdd) (match' : FieldSet) (s : Priorities),
    StandsTo calls n d match' s → StandsTo calls' n d match' s := by
  induction n with
  | zero => exact fun _ _ _ _ => trivial
  | succ n ih => exact fun d match' s stands =>
      Diagram.EachLeaf.mono (LeafStands.mono ih sub) stands

/-! ## What was just translated stands -/

theorem stands_translate {d : Fdd} (n : Nat) : ∀ {match' match'' : FieldSet} {s : Priorities},
    d.Unexplored → d.Separate match' → match''.get = match'.get →
      (translate d match'' s).calls ⊆ calls → StandsTo calls n (translate d match'' s).diagram match' s := by
  cases n with
  | zero => exact fun _ _ _ _ => trivial
  | succ n =>
      induction d with
      | leaf l =>
          intro match' match'' s unexplored _ same sub
          refine ⟨⟨rfl, rfl⟩, ⟨match'', same, sub (List.mem_singleton_self _)⟩, ?_⟩
          have fresh : l.mapleTree = default := unexplored
          show Agrees _ _ l.mapleTree.node
          rw [fresh]
          exact agrees_unexplored _
      | node f pos neg ihPos ihNeg =>
          rintro match' match'' s ⟨unexploredP, unexploredN⟩ ⟨_, _, separateP, separateN⟩ same sub
          have matchN := (table_places (s := s.enter f) separateN same).2
          have modified : ((translate neg match'' (s.enter f)).match'.modify f).get =
              (match'.modify f).get := by
            rw [Knowledge.get_modify, Knowledge.get_modify, matchN]
          obtain ⟨subN, subP⟩ := List.append_subset.mp sub
          exact ⟨ihNeg unexploredN separateN same subN, ihPos unexploredP separateP modified subP⟩

/-- An augmention ends with the translation of the diagram, at the end of the trace. -/
theorem augment_finishes {p : Policy} {d : Fdd} (compiled : compile p = some d)
    {trace : List TraceCall} : ∀ {a : Augmention} {t : TraceNode} {r : Augmented},
      augment true p trace a t = pure r →
        (∃ first, r.calls = first ++ (a.after trace).rules d ∧ first.Sublist (barriers trace a)) ∧
          r.leaf.katDiagram = (translate d (a.after trace).match' (a.after trace).priorities).diagram := by
  induction trace with
  | nil =>
      intro a t r result
      cases t with
      | test | load => cases result
      | unexplored | leaf =>
          obtain ⟨d', compiled', result⟩ := Traversal.bind_eq_pure result
          rw [compiled] at compiled'
          cases compiled'
          cases result
          exact ⟨⟨[], rfl, .refl _⟩, rfl⟩
  | cons call trace ih =>
      intro a t r result
      cases call with
      | load f =>
          cases t with
          | test | leaf => cases result
          | unexplored =>
              obtain ⟨rest, augmented, result⟩ := Traversal.bind_eq_pure result
              cases result
              have later := ih augmented
              exact later
          | load m cases =>
              rw [augment] at result
              by_cases same : m = f.mask
              · rw [if_pos same] at result
                obtain ⟨rest, augmented, result⟩ := Traversal.bind_eq_pure result
                cases result
                have later := ih augmented
                exact later
              · rw [if_neg same] at result
                cases result
      | test f b =>
          cases t with
          | unexplored =>
              obtain ⟨rest, augmented, result⟩ := Traversal.bind_eq_pure result
              cases result
              obtain ⟨⟨first, calls, sub⟩, leaf⟩ := ih augmented
              exact ⟨⟨_ :: first, congrArg (List.cons _) calls, sub.cons_cons _⟩, leaf⟩
          | test need note pos neg =>
              rw [augment] at result
              by_cases same : need = f
              · rw [if_pos same] at result
                obtain ⟨rest, augmented, result⟩ := Traversal.bind_eq_pure result
                cases result
                obtain ⟨⟨first, calls, sub⟩, leaf⟩ := ih augmented
                exact ⟨⟨first, calls, sub.cons _⟩, leaf⟩
              · rw [if_neg same] at result
                cases result
          | leaf l =>
              obtain ⟨⟨first, calls, sub⟩, leaf⟩ := ih result
              exact ⟨⟨first, calls, sub.cons _⟩, leaf⟩
          | load m cases =>
              obtain ⟨⟨first, calls, sub⟩, leaf⟩ := ih result
              exact ⟨⟨first, calls, sub.cons _⟩, leaf⟩

/-! ## One step of a traversal -/

section

variable {x : Packet} {l : Leaf TraceTree} {s : FieldSet} {d : Fdd}

/-- Where a traversal goes on from a leaf with packet functions: a diagram of the policy that these
return, with the tree into which what becomes of it is put. -/
structure GoesOn (x : Packet) (l : Leaf TraceTree) (s : FieldSet) (d : Fdd) (leaf : LeafNode Fdd)
    (node : TraceNode) (calls : List BackendCall) (s' : FieldSet) : Prop where
  match' : s'.get = (l.verdict.matchAfter x s).get
  bare : leaf.katDiagram.bare = d.bare
  sound : Sound leaf.katDiagram s'.get
  result : ∀ r, traverse true x leaf.katDiagram s' = pure r →
    traverse true x (.leaf l) s = pure
      { r with
        diagram := .leaf (l.setNode (Tree.put { leaf with katDiagram := r.diagram }
          ((l.verdict.merged x s).map TraceCall.asked) node))
        calls := calls ++ r.calls }

/-- The tree knows the packet, or is augmented with its trace. -/
theorem leaf_goesOn (body : l.hasBody = true) (compiled : compile (l.verdict.returned x) = some d)
    (sound : Sound (.leaf l) s.get) (of : Knowledge.Of s.get x)
    (holds : ∀ call ∈ l.verdict.merged x s, Holds x call) :
    (∃ leaf s', l.mapleTree.node.lookup (answers x) = some leaf ∧
        GoesOn x l s d leaf l.mapleTree.node [] s') ∨
      ∃ a s', augment true (l.verdict.returned x) (l.verdict.merged x s) ⟨s, l.prioDown, l.prioUp⟩
          l.mapleTree.node = pure a ∧ GoesOn x l s d a.leaf a.node a.calls s' := by
  have agrees := sound_leaf.mp sound
  have follows := leaf_follows l of
  have find := findLeaf_packet x l.mapleTree.node
  have miss (use : usable x (l.mapleTree.node.lookup (answers x)) = pure none) :
      ∃ a s', augment true (l.verdict.returned x) (l.verdict.merged x s) ⟨s, l.prioDown, l.prioUp⟩
        l.mapleTree.node = pure a ∧ GoesOn x l s d a.leaf a.node a.calls s' := by
    obtain ⟨a, augmented, aug⟩ := augment_path true compiled (l.verdict.merged x s)
      (a := ⟨s, l.prioDown, l.prioUp⟩) follows.path ((agrees 0).mono fun _ _ _ => trivial)
    have unexplored := aug.diagram.unexplored (compile_unexplored compiled)
    refine ⟨a, fieldSetUnion a.match' ((l.mapleTree.node.way (answers x)).foldl noteAnswer ∅),
      augmented, ?_, aug.diagram.bare.symm, sound_unexplored unexplored _, fun r next => ?_⟩
    · rw [aug.match']
      exact miss_known of (agrees 0) holds
    · have explored : explore true x l s = pure a := (explore_packet true body s).trans augmented
      rw [← aug.path]
      exact traverse_miss body find use explored next
  cases found : l.mapleTree.node.lookup (answers x) with
  | none => exact .inr (miss (by rw [found]; rfl))
  | some leaf =>
      rcases usable_packet x leaf with use | use
      · obtain ⟨way, after⟩ := hit_known of (agrees 0) holds found
        have stored (n : Nat) := (agrees n).lookup found
        rcases follows.answers with ⟨-, -, run⟩ | ⟨fails, -⟩
        · rw [run] at stored
          obtain ⟨⟨d', compiled', bare⟩, -⟩ := stored 0
          have sum : l.verdict.returned x = .sum ((unitsProg l.sets).run (answers x)) :=
            (unitsProg_answers x l.verdict).2
          rw [← sum, compiled] at compiled'
          cases compiled'
          refine .inl ⟨leaf, _, rfl, after, bare, fun n => after ▸ (stored n).2, fun r next => ?_⟩
          rw [found] at find
          rw [← way]
          exact traverse_hit body find use next
        · exact absurd holds fails
      · exact .inr (miss (by rw [found]; exact use))

end

/-! ## Standing on -/

/-- The interval a trace ends in does not depend on the match. -/
theorem after_priorities {trace : List TraceCall} : ∀ {a b : Augmention}, a.priorities = b.priorities →
    (a.after trace).priorities = (b.after trace).priorities := by
  induction trace with
  | nil => exact id
  | cons call trace ih =>
      intro a b same
      cases call with
      | load f => exact ih (a := a.load f) (b := b.load f) same
      | test f r =>
          refine ih (a := a.test f r) (b := b.test f r) ?_
          rw [step_priorities, step_priorities, same]

theorem get_noteCall_congr {s s' : FieldSet} (same : s.get = s'.get) (call : TraceCall) :
    (noteCall s call).get = (noteCall s' call).get := by
  rw [Knowledge.get_noteCall, Knowledge.get_noteCall, same]

theorem get_after_congr {a b : Augmention} (same : a.match'.get = b.match'.get) (trace : List TraceCall) :
    (a.after trace).match'.get = (b.after trace).match'.get := by
  rw [after_match, after_match, Knowledge.get_foldl, Knowledge.get_foldl, same]

theorem table_barriers {trace : List TraceCall} : ∀ {a b : Augmention}, a.priorities = b.priorities →
    a.match'.get = b.match'.get → table (barriers trace a) = table (barriers trace b) := by
  induction trace with
  | nil => exact fun _ _ => rfl
  | cons call trace ih =>
      intro a b same get
      have later : (a.step call).match'.get = (b.step call).match'.get := by
        rw [step_match, step_match]
        exact get_noteCall_congr get call
      cases call with
      | load f => exact ih (a := a.load f) (b := b.load f) same later
      | test f r =>
          have middle : a.prioMiddle = b.prioMiddle := by
            have up : a.prioUp = b.prioUp := congrArg Priorities.prioUp same
            have down : a.prioDown = b.prioDown := congrArg Priorities.prioDown same
            rw [Augmention.prioMiddle, Augmention.prioMiddle, up, down]
          have modified : (a.match'.modify f).test = (b.match'.modify f).test :=
            test_congr_get (by rw [Knowledge.get_modify, Knowledge.get_modify, get])
          have rest := ih (a := a.test f r) (b := b.test f r)
            (by rw [step_priorities, step_priorities, same]) later
          show Rule.mk a.prioMiddle (a.match'.modify f).test none :: table (barriers trace (a.test f r)) =
            Rule.mk b.prioMiddle (b.match'.modify f).test none :: table (barriers trace (b.test f r))
          rw [middle, modified, rest]

section

variable {x : Packet} {place final : Place} {l : Leaf TraceTree} {s : FieldSet} {d : Fdd}

/-- A leaf at its place. -/
structure LeafAt (calls : List BackendCall) (l : Leaf TraceTree) (s : FieldSet) (place : Place) : Prop where
  verdict : l.verdict = place.verdict
  match' : s.get = place.match'.get
  sound : Sound (.leaf l) s.get
  stands : ∀ n, LeafStands (StandsTo calls n) calls l place

namespace LeafAt

variable (at' : LeafAt calls l s place)

include at'

theorem trace_eq : l.verdict.merged x s = place.trace x := by
  rw [at'.verdict]
  exact mergeCalls_get _ at'.match'

theorem ends_get : (l.verdict.matchAfter x s).get = (place.ends x).match'.get := by
  rw [Verdict.matchAfter, at'.trace_eq, Place.ends, after_match, Knowledge.get_foldl, Knowledge.get_foldl,
    at'.match']
  rfl

theorem start : (Augmention.mk s l.prioDown l.prioUp).priorities = place.start.priorities := by
  obtain ⟨down, up⟩ := (at'.stands 0).priorities
  show Priorities.mk l.prioDown l.prioUp 0 none = Priorities.mk place.prioDown place.prioUp 0 none
  rw [down, up]

/-- The trace of the packet, with the interval it leaves. -/
theorem follows (known' : place.match'.test x = true) :
    let p := known (unitsProg l.sets) place.match'.get
    let result := some ((unitsProg l.sets).run (answers x), (place.ends x).match'.get)
    (spaced p place.start.priorities).Path ((place.trace x).map TraceCall.asked)
        (result, (place.ends x).priorities) ∧
      ((∀ call ∈ place.trace x, Holds x call) →
        (spaced p place.start.priorities).run (answers x) = (result, (place.ends x).priorities)) := by
  have of : Knowledge.Of place.match'.get x := FieldSet.test_iff.mp known'
  have follows := leaf_follows l of
  rw [at'.verdict] at follows
  have after : (place.verdict.matchAfter x place.match').get = (place.ends x).match'.get :=
    congrArg FieldSet.get (after_match (place.trace x) place.start).symm
  rw [after] at follows
  refine ⟨spaced_path (a := place.start) follows.path, fun holds => ?_⟩
  rcases follows.answers with ⟨-, asked, run⟩ | ⟨fails, -⟩
  · rw [spaced_run (a := place.start) asked, run]
    rfl
  · exact absurd holds fails

end LeafAt

/-- Where the traversal goes on from a leaf at its place: what is stored there stands at the end of the
trace, and what was installed on the way are barriers and rules of the packet. -/
theorem goesOn_stands (at' : LeafAt calls l s place) (clear : Clear x place)
    (body : place.verdict.hasBody = true) (compiled : compile (place.verdict.returned x) = some d)
    (known' : place.match'.test x = true) :
    ∃ leaf node first s', GoesOn x l s d leaf node first s' ∧
      (∀ n, StandsTo (calls ++ first) n leaf.katDiagram (place.ends x).match' (place.ends x).priorities) ∧
      (∀ call ∈ first, Entry x place call.rule) ∧
      ∀ n calls', calls ++ first ⊆ calls' →
        Agrees (StoredAt (StandsTo calls' n))
          (spaced (known (unitsProg l.sets) place.match'.get) place.start.priorities) node := by
  have verdict := at'.verdict
  have holds := clear.holds body
  have of : Knowledge.Of s.get x := at'.match' ▸ FieldSet.test_iff.mp known'
  obtain ⟨path, run⟩ := at'.follows known'
  rcases leaf_goesOn (by rw [← verdict] at body; exact body) (verdict ▸ compiled) at'.sound of
    (at'.trace_eq ▸ holds) with ⟨leaf, s', found, goesOn⟩ | ⟨a, s', augmented, goesOn⟩
  · refine ⟨leaf, _, [], s', goesOn, fun n => ?_, fun _ none => absurd none List.not_mem_nil,
      fun n calls' sub => ?_⟩
    · have stored := (at'.stands n).tree.lookup found
      rw [run holds] at stored
      obtain ⟨match', get, stands⟩ := stored
      rw [List.append_nil]
      exact stands.congr get
    · rw [List.append_nil] at sub
      exact (at'.stands n).tree.mono (StoredAt.mono (StandsTo.mono sub))
  · rw [at'.trace_eq] at augmented
    have compiled' : compile (l.verdict.returned x) = some d := verdict ▸ compiled
    obtain ⟨⟨first, made, sub⟩, katDiagram⟩ := augment_finishes compiled' augmented
    obtain ⟨a', augmented', aug⟩ := augment_path true compiled' (place.trace x)
      (a := ⟨s, l.prioDown, l.prioUp⟩) path ((at'.stands 0).tree.mono fun _ _ _ => trivial)
    rw [augmented] at augmented'
    cases augmented'
    have priorities : ((Augmention.mk s l.prioDown l.prioUp).after (place.trace x)).priorities =
        (place.ends x).priorities := after_priorities at'.start
    have get : ((Augmention.mk s l.prioDown l.prioUp).after (place.trace x)).match'.get =
        (place.ends x).match'.get := get_after_congr at'.match' _
    have fits := clear.fits body compiled
    rw [priorities] at katDiagram
    have rules : ((Augmention.mk s l.prioDown l.prioUp).after (place.trace x)).rules d =
        (translate d ((Augmention.mk s l.prioDown l.prioUp).after (place.trace x)).match'
          (place.ends x).priorities).calls := by
      rw [← priorities]
      rfl
    rw [rules] at made
    have stands (n : Nat) (calls' : List BackendCall) (sub : calls ++ a.calls ⊆ calls') :
        StandsTo calls' n a.leaf.katDiagram (place.ends x).match' (place.ends x).priorities := by
      rw [katDiagram]
      refine stands_translate n (compile_unexplored compiled) fits.separate get fun call mem => ?_
      exact sub (List.mem_append_right _ (made ▸ List.mem_append_right _ mem))
    refine ⟨a.leaf, a.node, a.calls, s', goesOn, fun n => stands n _ (List.Subset.refl _),
      fun call mem => ?_, fun n calls' sub => ?_⟩
    · rw [made] at mem
      rcases List.mem_append.mp mem with barrier | rule
      · have mem : call.rule ∈ table _ := List.mem_map_of_mem (sub.subset barrier)
        rw [table_barriers at'.start at'.match'] at mem
        exact .barrier body mem
      · have mem : call.rule ∈ table _ := List.mem_map_of_mem rule
        rw [(table_places (s := (place.ends x).priorities) fits.separate get).1] at mem
        obtain ⟨there, memPlace, same⟩ := List.mem_map.mp mem
        rw [← same]
        exact .rule body compiled memPlace
    · refine aug.agrees _ ((at'.stands n).tree.mono (StoredAt.mono (StandsTo.mono ?_))) ?_
      · exact fun call mem => sub (List.mem_append_left _ mem)
      · exact ⟨_, rfl, stands n calls' sub⟩

/-- What handling the packet at a leaf leaves: the leaf stands, with nothing installed but entries of
the packet, and installed are the rule of the place it reaches and the barriers it comes by. -/
structure Settled (x : Packet) (calls : List BackendCall) (l : Leaf TraceTree) (place final : Place)
    (r : Traversed) (l' : Leaf TraceTree) : Prop where
  diagram : r.diagram = .leaf l'
  leaf : r.leaf.verdict = final.verdict
  verdict : l'.verdict = l.verdict
  stands : ∀ n, LeafStands (StandsTo (calls ++ r.calls) n) (calls ++ r.calls) l' place
  entries : ∀ call ∈ r.calls, Entry x place call.rule
  final : final.Stands (calls ++ r.calls)
  passes : ∀ by', Passes x place by' → by'.Stands (calls ++ r.calls)

/-- **A packet is handled at a leaf that stands at its place, and leaves it standing.** -/
theorem traverse_stands (reaches : Reaches x place final) :
    ∀ {l : Leaf TraceTree} {s : FieldSet} {calls : List BackendCall}, Clear x place →
      place.match'.test x = true → LeafAt calls l s place →
        ∃ r l', traverse true x (.leaf l) s = pure r ∧ Settled x calls l place final r l' := by
  induction reaches with
  | @plain place plain =>
      intro l s calls _ _ at'
      have plain' : l.hasBody = false := by
        rw [← at'.verdict] at plain
        exact plain
      refine ⟨_, l, traverse_plain plain', rfl, at'.verdict, rfl, ?_, ?_, ?_, ?_⟩
      · exact fun n => (List.append_nil calls).symm ▸ at'.stands n
      · exact fun _ none => absurd none List.not_mem_nil
      · exact (List.append_nil calls).symm ▸ (at'.stands 0).rule
      · intro by' passes
        cases passes with
        | here body => simp [plain] at body
        | later body _ _ => simp [plain] at body
  | @returned place final d body compiled rest ih =>
      intro l s calls clear known' at'
      obtain ⟨leaf, node, first, s', goesOn, stands, entries, agrees⟩ :=
        goesOn_stands at' clear body compiled known'
      have get : s'.get = (place.ends x).match'.get := goesOn.match'.trans at'.ends_get
      have next : leaf.katDiagram.placeAt x (place.ends x).match' (place.ends x).priorities =
          place.next x d := placeAt_bare x goesOn.bare _ _
      -- the leaf of the packet in the stored diagram
      have below : LeafAt (calls ++ first) (leaf.katDiagram.leafAt x) (leaf.katDiagram.matchAt x s')
          (place.next x d) := by
        obtain ⟨verdict, match'⟩ := placeAt_verdict x leaf.katDiagram (place.ends x).match'
          (place.ends x).priorities
        rw [next] at verdict match'
        refine ⟨verdict.symm, ?_, goesOn.sound.leafAt x, fun n => ?_⟩
        · rw [match']
          exact leaf.katDiagram.matchAt_get x get
        · have here := Diagram.EachLeaf.leafAt x (stands (n + 1))
          rwa [next] at here
      have knownEnds : (place.ends x).match'.test x = true :=
        test_after (a := place.start) known' (clear.holds body)
      obtain ⟨r, l', result, settled⟩ :=
        ih (clear.next body compiled) (placeAt_covers x knownEnds) below
      have result' := goesOn.result _ (traverse_replaceAt true leaf.katDiagram result)
      rw [at'.trace_eq] at result'
      have all : calls ++ (first ++ r.calls) = calls ++ first ++ r.calls :=
        (List.append_assoc _ _ _).symm
      refine ⟨_, _, result', rfl, settled.leaf, rfl, fun n => ⟨(at'.stands n).priorities, ?_, ?_⟩,
        fun call mem => ?_, ?_, fun by' passes => ?_⟩
      · exact (at'.stands n).rule.mono (List.subset_append_left _ _)
      · -- what has become of the stored diagram stands too
        obtain ⟨path, -⟩ := at'.follows known'
        refine (agrees n _ ?_).put path ⟨_, rfl, ?_⟩
        · rw [all]
          exact List.subset_append_left _ _
        · rw [all]
          have old := StandsTo.mono (List.subset_append_left (calls ++ first) r.calls) _ _ _ (stands n)
          cases n with
          | zero => trivial
          | succ n =>
              rw [settled.diagram]
              refine Diagram.EachLeaf.replaceAt old settled.verdict ?_
              rw [next]
              exact settled.stands n
      · rcases List.mem_append.mp mem with here | later
        · exact entries call here
        · exact .later body compiled (settled.entries call later)
      · rw [all]
        exact settled.final
      · rcases (Passes.cases_returned body compiled).mp passes with rfl | passes
        · exact (at'.stands 0).rule.mono (List.subset_append_left _ _)
        · rw [all]
          exact settled.passes by' passes

end

end Drunos.Retic
