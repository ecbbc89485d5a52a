/-
# Drunos.Retic.Lookups — induction over lookups

A lookup goes from leaf to leaf: from a leaf with functions to a diagram that its tree
has stored, or else to the diagram of a policy that the functions return. It comes to an
end: what is stored in a tree is a smaller diagram (`Fdd.induct`), and the functions of
a returned policy are nested less. `lookup_induct` is the induction that follows.

Whatever the tree and the trace are, an augmention throws no `out_of_range`, and the
diagram it adds is the one of the policy (`augment_inRange`).
-/
import Drunos.Retic.Whole

namespace Drunos.Retic

open Drunos.Oxm Drunos.Theory Drunos.Theory.Exploration Drunos.Maple

set_option autoImplicit false

/-! ## Traversals that throw no `out_of_range` -/

/-- No `out_of_range` is thrown, and `P` holds of what is returned. -/
def InRange {α : Type} (P : α → Prop) (t : Traversal α) : Prop :=
  (∀ a, t = pure a → P a) ∧ t ≠ throw .outOfRange

section

variable {α β : Type} {P : α → Prop} {Q : β → Prop}

theorem InRange.pure {a : α} (holds : P a) : InRange P (pure a) := by
  refine ⟨fun b same => ?_, fun same => ?_⟩
  · injection same with same
    injection same with same
    exact same ▸ holds
  · injection same with same
    cases same

theorem InRange.throw {e : TraverseError} (other : e ≠ .outOfRange) :
    InRange P (throw e : Traversal α) := by
  refine ⟨fun b same => ?_, fun same => ?_⟩
  · injection same with same
    cases same
  · injection same with same
    injection same with same
    exact other same

theorem InRange.mono {P' : α → Prop} {t : Traversal α} (inRange : InRange P t)
    (weaker : ∀ a, P a → P' a) : InRange P' t :=
  ⟨fun a result => weaker a (inRange.1 a result), inRange.2⟩

theorem InRange.bind {t : Traversal α} {f : α → Traversal β} (first : InRange P t)
    (next : ∀ a, P a → InRange Q (f a)) : InRange Q (t >>= f) := by
  obtain ⟨holds, safe⟩ := first
  match t, holds, safe with
  | none, _, _ => exact ⟨fun b same => (by cases same), fun same => (by cases same)⟩
  | some (.ok a), holds, _ => exact next a (holds a rfl)
  | some (.error e), _, safe => exact InRange.throw fun same => safe (same ▸ rfl)

theorem InRange.ofCompiler {result : Option α} (holds : ∀ a, result = some a → P a) :
    InRange P (ofCompiler result) := by
  cases result with
  | none => exact ⟨fun b same => (by cases same), fun same => (by cases same)⟩
  | some a => exact .pure (holds a rfl)

theorem ofPacket_some {α : Type} {a : α} {result : Option α} (found : result = some a) :
    ofPacket result = pure a := by
  rw [found]
  rfl

theorem ofPacket_none {α : Type} {result : Option α} (missing : ¬result.isSome) :
    ofPacket result = throw .outOfRange := by
  rw [Option.not_isSome_iff_eq_none.mp missing]
  rfl

end

variable [OxmTypes]

/-! ## Induction over lookups -/

/-- Induction over diagrams: what is stored in the tree of a leaf is smaller. -/
theorem Fdd.induct {motive : Fdd → Prop}
    (leaf : ∀ l : Leaf TraceTree, (∀ s, Tree.Has s l.mapleTree.node → motive s.katDiagram) →
      motive (.leaf l))
    (node : ∀ f pos neg, motive pos → motive neg → motive (.node f pos neg)) : ∀ d, motive d
  | .leaf ⟨sets, settings, .mk tree, down, up⟩ =>
      leaf ⟨sets, settings, .mk tree, down, up⟩ (inTree tree)
  | .node f pos neg => node f pos neg (Fdd.induct leaf node pos) (Fdd.induct leaf node neg)
where
  inTree : ∀ (t : TraceNode) (s : LeafNode Fdd), Tree.Has s t → motive s.katDiagram
    | .unexplored, _, has => nomatch has
    | .leaf ⟨_, d⟩, _, .leaf => Fdd.induct leaf node d
    | .test _ _ pos _, s, .positive below => inTree pos s below
    | .test _ _ _ neg, s, .negative below => inTree neg s below
    | .load _ cases, s, .case mem below => inCases cases _ _ mem s below
  inCases : ∀ (cases : List (Nat × TraceNode)) (u : Nat) (t : TraceNode), (u, t) ∈ cases →
      ∀ s, Tree.Has s t → motive s.katDiagram
    | [], _, _, mem => nomatch mem
    | (u', t') :: rest, u, t, mem => fun s below => by
        rcases List.mem_cons.mp mem with here | later
        · injection here with _ same
          subst same
          exact inTree t s below
        · exact inCases rest u t later s below

/-- The functions of a leaf are nested to this depth at most. -/
def Bodies (n : Nat) (l : Leaf TraceTree) : Prop :=
  ∀ unit ∈ l.sets, ∀ f, unit.body = some f → n ≠ 0 ∧ Policy.Nests.nestsHandler f.function (n - 1)

/-- A diagram that was just compiled, with functions nested to a depth at most. -/
structure NestedTo (n : Nat) (d : Fdd) : Prop where
  unexplored : d.Unexplored
  bodies : d.AllLeaves (Bodies n)

theorem compile_nestedTo {p : Policy} {n : Nat} {d : Fdd} (nests : p.Nests n)
    (compiled : compile p = some d) : NestedTo n d :=
  ⟨compile_unexplored compiled, Policy.compile_bodies compiled nests.allFunctions⟩

theorem translate_nestedTo {n : Nat} {d : Fdd} (nested : NestedTo n d) (match' : FieldSet)
    (s : Priorities) : NestedTo n (translate d match' s).diagram := by
  obtain ⟨unexplored, bodies⟩ := nested
  induction d generalizing match' s with
  | leaf l => exact ⟨unexplored, bodies⟩
  | node f pos neg ihPos ihNeg =>
      have first := fun m s => ihPos m s unexplored.1 bodies.1
      have second := fun m s => ihNeg m s unexplored.2 bodies.2
      exact ⟨⟨(first _ _).unexplored, (second _ _).unexplored⟩,
        (first _ _).bodies, (second _ _).bodies⟩

theorem runTraced_nests {V : Type} [PacketView V] {n : Nat} {h : Handler Policy} :
    ∀ {x : V} {cache mods : FieldSet} {r : TracedRun Policy}, Policy.Nests.nestsHandler h n →
      runTraced h x cache mods = some r → r.result.Nests n := by
  induction h with
  | ret p =>
      intro x cache mods r nests result
      obtain rfl := Option.some.inj result
      exact nests
  | modify patch next ih =>
      intro x cache mods r nests result
      obtain ⟨y, -, result⟩ := Option.bind_eq_some_iff.mp result
      exact ih nests result
  | load m next ih =>
      intro x cache mods r nests result
      rw [runTraced] at result
      obtain ⟨read, -, result⟩ := Option.bind_eq_some_iff.mp result
      dsimp only at result
      split at result
      · exact ih _ (nests _) result
      · obtain ⟨rest, ran, told⟩ := Option.bind_eq_some_iff.mp result
        obtain rfl := Option.some.inj told
        show rest.result.Nests n
        exact ih _ (nests _) ran
  | test need next ih =>
      intro x cache mods r nests result
      rw [runTraced] at result
      obtain ⟨read, -, result⟩ := Option.bind_eq_some_iff.mp result
      dsimp only at result
      split at result
      · split at result
        · exact ih _ (nests _) result
        · obtain ⟨rest, ran, told⟩ := Option.bind_eq_some_iff.mp result
          obtain rfl := Option.some.inj told
          show rest.result.Nests n
          exact ih _ (nests _) ran
      · exact ih _ (nests _) result

/-! ## Augmentions -/

/-- The diagram of a policy, translated or not. -/
def IsDiagramOf (p : Policy) (d : Fdd) : Prop :=
  ∃ d₁ : Fdd, compile p = some d₁ ∧ (d = d₁ ∨ ∃ match' s, d = (translate d₁ match' s).diagram)

theorem finish_inRange (backend : Bool) (p : Policy) (a : Augmention) (node : TraceNode) :
    InRange (fun r : Augmented => IsDiagramOf p r.leaf.katDiagram) (finish backend p a node) := by
  have whole : InRange (fun r : Augmented => IsDiagramOf p r.leaf.katDiagram)
      (finish backend p a .unexplored) := by
    refine .bind (.ofCompiler (P := fun d => compile p = some d) fun d found => found) ?_
    intro d compiled
    refine .pure ⟨d, compiled, ?_⟩
    cases backend
    · exact .inl rfl
    · exact .inr ⟨_, _, rfl⟩
  cases node with
  | unexplored => exact whole
  | leaf l => exact whole
  | test => exact .throw (by simp)
  | load => exact .throw (by simp)

/-- An augmention throws no `out_of_range`, and what it adds is the diagram of the policy. -/
theorem augment_inRange (backend : Bool) (p : Policy) (trace : List TraceCall) :
    ∀ (a : Augmention) (node : TraceNode),
      InRange (fun r : Augmented => IsDiagramOf p r.leaf.katDiagram) (augment backend p trace a node) := by
  induction trace with
  | nil => exact fun a node => finish_inRange backend p a node
  | cons call trace ih =>
      intro a node
      cases call with
      | load f =>
          cases node with
          | unexplored => exact (ih _ _).bind fun r holds => .pure holds
          | load mask cases =>
              rw [augment]
              split_ifs
              · exact (ih _ _).bind fun r holds => .pure holds
              · exact .throw (by simp)
          | _ => exact .throw (by simp)
      | test f b =>
          cases node with
          | unexplored => exact (ih _ _).bind fun r holds => .pure holds
          | test need note pos neg =>
              rw [augment]
              by_cases same : need = f
              · rw [if_pos same]
                exact (ih _ _).bind fun r holds => .pure holds
              · rw [if_neg same]
                exact .throw (by simp)
          | leaf l => exact ih _ _
          | load mask cases => exact ih _ _

/-- What a leaf goes on with where its functions are run: the diagram of a policy that is nested
less. -/
def Leaf.Returns (l : Leaf TraceTree) (d : Fdd) : Prop :=
  ∀ n, Bodies n l → ∃ p : Policy, p.Nests (n - 1) ∧ IsDiagramOf p d

theorem IsDiagramOf.nestedTo {p : Policy} {n : Nat} {d : Fdd} (isDiagram : IsDiagramOf p d)
    (nests : p.Nests n) : NestedTo n d := by
  obtain ⟨d₁, compiled, rfl | ⟨match', s, rfl⟩⟩ := isDiagram
  · exact compile_nestedTo nests compiled
  · exact translate_nestedTo (compile_nestedTo nests compiled) match' s

theorem exists_bodies (l : Leaf TraceTree) : ∃ n, Bodies n l := by
  have mono {m n : Nat} (le : m ≤ n) {unit : ActionUnit} (nested : ∀ f, unit.body = some f →
      m ≠ 0 ∧ Policy.Nests.nestsHandler f.function (m - 1)) : ∀ f, unit.body = some f →
        n ≠ 0 ∧ Policy.Nests.nestsHandler f.function (n - 1) := by
    intro f found
    obtain ⟨positive, nests⟩ := nested f found
    exact ⟨by omega, Policy.Nests.mono.handler _ (Nat.sub_le_sub_right le 1) nests⟩
  unfold Bodies
  induction l.sets with
  | nil => exact ⟨0, fun _ mem => absurd mem List.not_mem_nil⟩
  | cons unit units ih =>
      obtain ⟨m, tail⟩ := ih
      have head : ∃ n, ∀ f, unit.body = some f →
          n ≠ 0 ∧ Policy.Nests.nestsHandler f.function (n - 1) := by
        cases body : unit.body with
        | none => exact ⟨0, fun f none => by cases none⟩
        | some f =>
            obtain ⟨n, nests⟩ := Policy.exists_nests.handler f.function
            exact ⟨n + 1, fun g same => Option.some.inj same ▸ ⟨by omega, nests⟩⟩
      obtain ⟨n, head⟩ := head
      refine ⟨max m n, List.forall_mem_cons.mpr ⟨mono (le_max_right m n) head, ?_⟩⟩
      exact fun unit mem => mono (le_max_left m n) (tail unit mem)

/-- **Induction over lookups**: at a leaf with functions a lookup goes on with a diagram that is
stored in its tree or with one of the policies its functions return. -/
theorem lookup_induct {motive : Fdd → Prop}
    (plain : ∀ l : Leaf TraceTree, l.hasBody = false → motive (.leaf l))
    (leaf : ∀ l : Leaf TraceTree, l.hasBody = true →
      (∀ s, Tree.Has s l.mapleTree.node → motive s.katDiagram) → (∀ d, l.Returns d → motive d) →
        motive (.leaf l))
    (node : ∀ f pos neg, motive pos → motive neg → motive (.node f pos neg)) (d : Fdd) :
    motive d := by
  have fresh : ∀ n {d : Fdd}, NestedTo n d → motive d := by
    intro n
    induction n using Nat.strong_induction_on with
    | _ n ih =>
        intro d nested
        induction d with
        | leaf l =>
            cases body : l.hasBody with
            | false => exact plain l body
            | true =>
                have unexplored : l.mapleTree = default := nested.unexplored
                refine leaf l body (fun s has => ?_) fun d returns => ?_
                · rw [unexplored] at has
                  cases has
                · obtain ⟨unit, mem, some⟩ := (hasBody_iff (v := l.verdict)).mp body
                  obtain ⟨f, found⟩ := Option.ne_none_iff_exists'.mp some
                  have positive : n ≠ 0 := (nested.bodies unit mem f found).1
                  obtain ⟨p, nests, isDiagram⟩ := returns n nested.bodies
                  exact ih (n - 1) (by omega) (isDiagram.nestedTo nests)
        | node f pos neg ihPos ihNeg =>
            exact node f pos neg (ihPos ⟨nested.unexplored.1, nested.bodies.1⟩)
              (ihNeg ⟨nested.unexplored.2, nested.bodies.2⟩)
  induction d using Fdd.induct with
  | node f pos neg ihPos ihNeg => exact node f pos neg ihPos ihNeg
  | leaf l ih =>
      cases body : l.hasBody with
      | false => exact plain l body
      | true =>
          refine leaf l body ih fun d returns => ?_
          obtain ⟨n, bodies⟩ := exists_bodies l
          obtain ⟨p, nests, isDiagram⟩ := returns n bodies
          exact fresh (n - 1) (isDiagram.nestedTo nests)

end Drunos.Retic
