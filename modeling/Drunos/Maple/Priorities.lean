/-
# Drunos.Maple.Priorities — priorities spread out anew

`PriorityUpdater` gives a subtree a part of the priority space in proportion to the tests and ends it
has. A space of twice that number is enough: then every part has room for two priorities for each of
its own (`average_room`), so that ordered neighbours differ by one at least before they are rounded and
by one at least after (`roundPrio_lt`). After an update every test is above what fails it and below
what passes it, and all is inside the space (`update_separates`).

The counts are kept by the ids of the tests. Ids are given once, so in a tree that tracers have built
(`Built`) a test finds its own counts there (`assignBy_eq`).
-/
import Drunos.Maple.Lookup
import Drunos.Oxm.OpenflowBasic
import Mathlib.Tactic.FieldSimp
import Mathlib.Tactic.Linarith
import Mathlib.Tactic.Positivity

namespace Drunos.Maple

open Drunos.Oxm Drunos.Theory Drunos.Theory.Run Drunos.Theory.Exploration

set_option autoImplicit false

/-! ## Numbers -/

theorem roundPrio_eq (q : ℚ) : roundPrio q = ⌊q + 1 / 2⌋.toNat := rfl

/-- Priorities that differ by one are different when they are rounded. -/
theorem roundPrio_lt {q q' : ℚ} (positive : 0 ≤ q) (gap : q + 1 ≤ q') : roundPrio q < roundPrio q' := by
  have next : ⌊q + 1 / 2⌋ + 1 ≤ ⌊q' + 1 / 2⌋ := by
    rw [← Int.floor_add_one]
    exact Int.floor_mono (by linarith)
  have nonneg : 0 ≤ ⌊q + 1 / 2⌋ := Int.floor_nonneg.mpr (by linarith)
  rw [roundPrio_eq, roundPrio_eq]
  omega

theorem roundPrio_natCast (n : Nat) : roundPrio n = n := by
  have floor : ⌊(n : ℚ) + 1 / 2⌋ = n := by
    rw [Int.floor_eq_iff]
    constructor <;> push_cast <;> linarith
  rw [roundPrio_eq, floor, Int.toNat_natCast]

/-- A test divides the space in proportion: both sides get their share of room. -/
theorem average_room {left right : ℚ} {k m : Nat} (some : 1 ≤ k) (some' : 1 ≤ m)
    (space : left + 2 * ((m + k + 1 : Nat) : ℚ) ≤ right) :
    left + 2 * k ≤ average left right k m ∧ average left right k m + 2 * m ≤ right := by
  have first : (1 : ℚ) ≤ k := by exact_mod_cast some
  have second : (1 : ℚ) ≤ m := by exact_mod_cast some'
  have sum : (0 : ℚ) < m + k := by linarith
  push_cast at space
  constructor
  · rw [average, le_div_iff₀ sum]
    nlinarith
  · rw [average, ← le_sub_iff_add_le, div_le_iff₀ sum]
    nlinarith

/-! ## Counts by id -/

theorem lookup_of_nodup {A B : Type} [DecidableEq A] {l : List (A × B)} {e : A × B}
    (nodup : (l.map Prod.fst).Nodup) (mem : e ∈ l) : l.lookup e.1 = some e.2 := by
  obtain ⟨before, after, rfl⟩ := List.append_of_mem mem
  rw [List.lookup_eq_some_iff]
  refine ⟨before, after, rfl, fun other there => ?_⟩
  have ne : other.1 ≠ e.1 := by
    rw [List.map_append, List.map_cons] at nodup
    exact (List.nodup_append.mp nodup).2.2 _ (List.mem_map_of_mem there) _ List.mem_cons_self
  simpa using ne.symm

section

variable [OxmTypes]

/-- `PriorityUpdater::Scope`. -/
structure Scope where
  positive : Nat
  negative : Nat
  deriving DecidableEq

/-- What `DepthCounter` puts in its map, in that order; of two entries for an id the first one counts. -/
def scopes : Node → List (Nat × Scope)
  | .unexplored => []
  | .leaf _ => []
  | .test _ info pos neg =>
      scopes pos ++ scopes neg ++ [(info.id, ⟨depthCount pos, depthCount neg⟩)]
  | .load _ cases => casesScopes cases
where
  casesScopes : List (Nat × Node) → List (Nat × Scope)
    | [] => []
    | (_, node) :: rest => scopes node ++ casesScopes rest

/-- `PriorityAssigner` with its map; it throws if a test is not there. -/
def assignBy (depth : List (Nat × Scope)) (left right : ℚ) : Node → Option Node
  | .unexplored => some .unexplored
  | .leaf l => some (.leaf { l with prio := roundPrio (average left right 1 1) })
  | .test need info pos neg => do
      let d ← depth.lookup info.id
      let prio := average left right d.negative d.positive
      let negative ← assignBy depth left prio neg
      let positive ← assignBy depth prio right pos
      return .test need { info with prio := roundPrio prio } positive negative
  | .load mask cases => do
      let cases ← assignCasesBy depth left right cases
      return .load mask cases
where
  assignCasesBy (depth : List (Nat × Scope)) (left right : ℚ) :
      List (Nat × Node) → Option (List (Nat × Node))
    | [] => some []
    | (bits, node) :: rest => do
        let node ← assignBy depth left right node
        let rest ← assignCasesBy depth left right rest
        return (bits, node) :: rest

/-- `PriorityUpdater`. -/
def priorityUpdater (left right : Nat) (root : Node) : Option Node :=
  assignBy (scopes root) left right root

theorem casesScopes_eq (cases : List (Nat × Node)) :
    scopes.casesScopes cases = cases.flatMap fun c => scopes c.2 := by
  induction cases with
  | nil => rfl
  | cons c rest ih => simp [scopes.casesScopes, ih]

theorem assignCases_eq (left right : ℚ) (cases : List (Nat × Node)) :
    assignPriorities.assignCases left right cases =
      cases.map fun c => (c.1, assignPriorities left right c.2) := by
  induction cases with
  | nil => rfl
  | cons c rest ih => simp [assignPriorities.assignCases, ih]

/-- Where every test finds its own counts, the map makes no difference. -/
theorem assignBy_of_lookup {depth : List (Nat × Scope)} {node : Node} :
    ∀ {left right : ℚ}, (∀ e ∈ scopes node, depth.lookup e.1 = some e.2) →
      assignBy depth left right node = some (assignPriorities left right node) := by
  induction node using Tree.induct with
  | unexplored => exact fun _ => rfl
  | leaf l => exact fun _ => rfl
  | test need info pos neg ihP ihN =>
      intro left right own
      simp only [scopes, List.forall_mem_append, List.forall_mem_singleton] at own
      obtain ⟨⟨ownP, ownN⟩, here⟩ := own
      simp [assignBy, assignPriorities, here, ihP ownP, ihN ownN]
  | load mask cases ih =>
      intro left right own
      have all : assignBy.assignCasesBy depth left right cases =
          some (assignPriorities.assignCases left right cases) := by
        rw [scopes, casesScopes_eq] at own
        induction cases with
        | nil => rfl
        | cons c rest ihCases =>
            obtain ⟨ihC, ihRest⟩ := List.forall_mem_cons.mp ih
            rw [List.flatMap_cons, List.forall_mem_append] at own
            simp [assignBy.assignCasesBy, assignPriorities.assignCases, ihC own.1, ihCases ihRest own.2]
      simp [assignBy, assignPriorities, all]

/-! ## Separated trees -/

/-- The priorities of all tests and flows. -/
def prios : Node → List Nat
  | .unexplored => []
  | .leaf l => [l.prio]
  | .test _ info pos neg => info.prio :: (prios pos ++ prios neg)
  | .load _ cases => casesPrios cases
where
  casesPrios : List (Nat × Node) → List Nat
    | [] => []
    | (_, node) :: rest => prios node ++ casesPrios rest

/-- Every test is above all of its negative side and below all of its positive side. -/
def Separated : Node → Prop
  | .unexplored => True
  | .leaf _ => True
  | .test _ info pos neg =>
      ((∀ prio ∈ prios neg, prio < info.prio) ∧ ∀ prio ∈ prios pos, info.prio < prio) ∧
        Separated pos ∧ Separated neg
  | .load _ cases => casesSeparated cases
where
  casesSeparated : List (Nat × Node) → Prop
    | [] => True
    | (_, node) :: rest => Separated node ∧ casesSeparated rest

theorem casesPrios_eq (cases : List (Nat × Node)) :
    prios.casesPrios cases = cases.flatMap fun c => prios c.2 := by
  induction cases with
  | nil => rfl
  | cons c rest ih => simp [prios.casesPrios, ih]

theorem casesSeparated_iff {cases : List (Nat × Node)} :
    Separated.casesSeparated cases ↔ ∀ c ∈ cases, Separated c.2 := by
  induction cases with
  | nil => simp [Separated.casesSeparated]
  | cons c rest ih => simp [Separated.casesSeparated, ih]

/-- No load is without a case. -/
def Grown : Node → Prop
  | .unexplored => True
  | .leaf _ => True
  | .test _ _ pos neg => Grown pos ∧ Grown neg
  | .load _ cases => cases ≠ [] ∧ casesGrown cases
where
  casesGrown : List (Nat × Node) → Prop
    | [] => True
    | (_, node) :: rest => Grown node ∧ casesGrown rest

theorem casesGrown_iff {cases : List (Nat × Node)} :
    Grown.casesGrown cases ↔ ∀ c ∈ cases, Grown c.2 := by
  induction cases with
  | nil => simp [Grown.casesGrown]
  | cons c rest ih => simp [Grown.casesGrown, ih]

theorem depthCount_le {c : Nat × Node} {cases : List (Nat × Node)} (mem : c ∈ cases) :
    depthCount c.2 ≤ depthCount.casesCount cases := by
  induction cases with
  | nil => cases mem
  | cons head rest ih =>
      rw [depthCount.casesCount]
      rcases List.mem_cons.mp mem with rfl | later
      · exact Nat.le_max_left _ _
      · exact (ih later).trans (Nat.le_max_right _ _)

theorem depthCount_pos {node : Node} : Grown node → 1 ≤ depthCount node := by
  induction node using Tree.induct with
  | unexplored => exact fun _ => le_rfl
  | leaf l => exact fun _ => le_rfl
  | test need info pos neg _ _ => simp [depthCount]
  | load mask cases ih =>
      rintro ⟨some, grown⟩
      obtain ⟨c, mem⟩ := List.exists_mem_of_ne_nil cases some
      exact (ih c mem (casesGrown_iff.mp grown c mem)).trans (depthCount_le mem)

/-- With room for two priorities for each, a subtree gets its priorities inside its space and in order. -/
theorem assignPriorities_separated {node : Node} : ∀ {left right : ℚ}, Grown node → 0 ≤ left →
    left + 2 * depthCount node ≤ right →
      Separated (assignPriorities left right node) ∧
        ∀ prio ∈ prios (assignPriorities left right node),
          roundPrio left < prio ∧ prio < roundPrio right := by
  induction node using Tree.induct with
  | unexplored => exact fun _ _ _ => ⟨trivial, by simp [assignPriorities, prios]⟩
  | leaf l =>
      intro left right _ start space
      have mid : average left right 1 1 = (left + right) / 2 := by norm_num [average]
      have below : left + 1 ≤ average left right 1 1 := by
        rw [mid]
        simp only [depthCount] at space
        push_cast at space
        linarith
      have above : average left right 1 1 + 1 ≤ right := by
        rw [mid]
        simp only [depthCount] at space
        push_cast at space
        linarith
      refine ⟨trivial, ?_⟩
      simp only [assignPriorities, prios, List.forall_mem_singleton]
      exact ⟨roundPrio_lt start below, roundPrio_lt (by linarith) above⟩
  | test need info pos neg ihP ihN =>
      rintro left right ⟨grownP, grownN⟩ start space
      obtain ⟨roomN, roomP⟩ := average_room (depthCount_pos grownN) (depthCount_pos grownP) space
      have someN : (1 : ℚ) ≤ depthCount neg := by exact_mod_cast depthCount_pos grownN
      have someP : (1 : ℚ) ≤ depthCount pos := by exact_mod_cast depthCount_pos grownP
      rw [assignPriorities]
      generalize average left right (depthCount neg) (depthCount pos) = prio at roomN roomP ⊢
      obtain ⟨orderedN, boundsN⟩ := ihN grownN start roomN
      obtain ⟨orderedP, boundsP⟩ := ihP grownP (by linarith) roomP
      have low : roundPrio left < roundPrio prio := roundPrio_lt start (by linarith)
      have high : roundPrio prio < roundPrio right := roundPrio_lt (by linarith) (by linarith)
      refine ⟨⟨⟨fun q mem => (boundsN q mem).2, fun q mem => (boundsP q mem).1⟩, orderedP, orderedN⟩, ?_⟩
      simp only [prios, List.forall_mem_cons, List.forall_mem_append]
      refine ⟨⟨low, high⟩, fun q mem => ?_, fun q mem => ?_⟩
      · exact ⟨low.trans (boundsP q mem).1, (boundsP q mem).2⟩
      · exact ⟨(boundsN q mem).1, (boundsN q mem).2.trans high⟩
  | load mask cases ih =>
      rintro left right ⟨_, grown⟩ start space
      have each (c : Nat × Node) (mem : c ∈ cases) := ih c mem (casesGrown_iff.mp grown c mem) start <| by
        have le : (depthCount c.2 : ℚ) ≤ depthCount (.load mask cases) := by
          exact_mod_cast depthCount_le mem
        linarith
      rw [assignPriorities, assignCases_eq]
      constructor
      · rw [Separated, casesSeparated_iff, List.forall_mem_map]
        exact fun c mem => (each c mem).1
      · rw [prios, casesPrios_eq]
        simp only [List.mem_flatMap, List.mem_map]
        rintro prio ⟨_, ⟨c, mem, rfl⟩, here⟩
        exact (each c mem).2 prio here

/-! ## Trees of tracers -/

def testIds (node : Node) : List Nat := (scopes node).map Prod.fst

@[simp] theorem testIds_unexplored : testIds .unexplored = [] := rfl

@[simp] theorem testIds_leaf (l : FlowNode) : testIds (.leaf l) = [] := rfl

@[simp] theorem testIds_test (need : Field) (info : TestNode) (pos neg : Node) :
    testIds (.test need info pos neg) = testIds pos ++ testIds neg ++ [info.id] := by
  simp [testIds, scopes]

@[simp] theorem testIds_load (mask : Mask) (cases : List (Nat × Node)) :
    testIds (.load mask cases) = cases.flatMap fun c => testIds c.2 := by
  rw [testIds, scopes, casesScopes_eq, List.map_flatMap]
  rfl

/-- The tests of a tree have ids of their own, all given before, and no load is without a case. -/
structure WellBuilt (id : Nat) (node : Node) : Prop where
  grown : Grown node
  nodup : (testIds node).Nodup
  given : ∀ i ∈ testIds node, i < id

theorem wellBuilt_unexplored (id : Nat) : WellBuilt id .unexplored := ⟨trivial, by simp, by simp⟩

/-- What a trace leaves: new tests have new ids. -/
structure Grows (id : Nat) (node : Node) (next : Nat) (node' : Node) : Prop where
  later : id ≤ next
  built : WellBuilt next node'
  new : ∀ i ∈ testIds node', i ∈ testIds node ∨ id ≤ i

theorem Grows.same {id : Nat} {node : Node} (built : WellBuilt id node) : Grows id node id node :=
  ⟨le_rfl, built, fun _ => .inl⟩

omit [OxmTypes] in
/-- Old ids in the middle of others are replaced by some of them and new ones. -/
theorem nodup_replace {id : Nat} {before old new after : List Nat}
    (nodup : (before ++ old ++ after).Nodup) (given : ∀ i ∈ before ++ old ++ after, i < id)
    (nodup' : new.Nodup) (source : ∀ i ∈ new, i ∈ old ∨ id ≤ i) : (before ++ new ++ after).Nodup := by
  simp only [List.nodup_append, List.mem_append] at nodup ⊢
  obtain ⟨⟨nodupB, -, apart⟩, nodupA, apart'⟩ := nodup
  refine ⟨⟨nodupB, nodup', fun i memB j memN same => ?_⟩, nodupA, fun i mem j memA same => ?_⟩
  · subst same
    rcases source i memN with memO | new
    · exact apart i memB i memO rfl
    · exact absurd (given i (by simp [memB])) (by omega)
  · subst same
    rcases mem with memB | memN
    · exact apart' i (.inl memB) i memA rfl
    · rcases source i memN with memO | new
      · exact apart' i (.inr memO) i memA rfl
      · exact absurd (given i (by simp [memA])) (by omega)

/-- A subtree that grows among others. -/
theorem Grows.replace {id next : Nat} {node node' old new : Node} (before after : List Nat)
    (below : Grows id old next new) (ids : testIds node = before ++ testIds old ++ after)
    (ids' : testIds node' = before ++ testIds new ++ after) (built : WellBuilt id node)
    (grown : Grown node') : Grows id node next node' where
  later := below.later
  built := by
    have given := built.given
    have nodup := built.nodup
    rw [ids] at given nodup
    refine ⟨grown, ids' ▸ nodup_replace nodup given below.built.nodup below.new, fun i mem => ?_⟩
    rw [ids', List.mem_append, List.mem_append] at mem
    rcases mem with (memB | memN) | memA
    · exact (given i (by simp [memB])).trans_le below.later
    · exact below.built.given i memN
    · exact (given i (by simp [memA])).trans_le below.later
  new i mem := by
    rw [ids', List.mem_append, List.mem_append] at mem
    rw [ids, List.mem_append, List.mem_append]
    rcases mem with (memB | memN) | memA
    · exact .inl (.inl (.inl memB))
    · exact (below.new i memN).imp_left fun memO => .inl (.inr memO)
    · exact .inl (.inr memA)

theorem WellBuilt.positive {id : Nat} {need : Field} {info : TestNode} {pos neg : Node}
    (built : WellBuilt id (.test need info pos neg)) : WellBuilt id pos := by
  obtain ⟨grown, nodup, given⟩ := built
  simp only [testIds_test, List.nodup_append, List.mem_append] at nodup given
  exact ⟨grown.1, nodup.1.1, fun i mem => given i (.inl (.inl mem))⟩

theorem WellBuilt.negative {id : Nat} {need : Field} {info : TestNode} {pos neg : Node}
    (built : WellBuilt id (.test need info pos neg)) : WellBuilt id neg := by
  obtain ⟨grown, nodup, given⟩ := built
  simp only [testIds_test, List.nodup_append, List.mem_append] at nodup given
  exact ⟨grown.2, nodup.1.2.1, fun i mem => given i (.inl (.inr mem))⟩

theorem WellBuilt.caseAt {id : Nat} {mask : Mask} {cases : List (Nat × Node)}
    (built : WellBuilt id (.load mask cases)) (v : Nat) : WellBuilt id (Tree.caseAt v cases) := by
  obtain ⟨grown, nodup, given⟩ := built
  rw [testIds_load] at nodup given
  rcases Tree.caseAt_mem v cases with none | mem
  · exact none ▸ wellBuilt_unexplored id
  · exact ⟨casesGrown_iff.mp grown.2 _ mem, (List.nodup_flatMap.mp nodup).1 _ mem,
      fun i here => given i (List.mem_flatMap.mpr ⟨_, mem, here⟩)⟩

/-- One case is replaced, or a last one added. -/
theorem setCase_split (v : Nat) (t : Node) (cases : List (Nat × Node)) :
    ∃ before after, Tree.setCase v t cases = before ++ (v, t) :: after ∧
      (cases = before ++ (v, Tree.caseAt v cases) :: after ∨
        (Tree.caseAt v cases = .unexplored ∧ cases = before ∧ after = [])) := by
  induction cases with
  | nil => exact ⟨[], [], rfl, .inr ⟨rfl, rfl, rfl⟩⟩
  | cons c rest ih =>
      obtain ⟨u, t'⟩ := c
      rw [Tree.setCase, Tree.caseAt]
      by_cases same : u = v
      · subst same
        exact ⟨[], rest, by simp, .inl (by simp)⟩
      · obtain ⟨before, after, eq, split⟩ := ih
        refine ⟨(u, t') :: before, after, by simp [same, eq], ?_⟩
        simp only [same, if_false]
        rcases split with here | ⟨none, rfl, rfl⟩
        · exact .inl (by rw [List.cons_append, ← here])
        · exact .inr ⟨none, rfl, rfl⟩

theorem Grows.setCase {id next : Nat} {mask : Mask} {v : Nat} {cases : List (Nat × Node)} {new : Node}
    (built : WellBuilt id (.load mask cases)) (below : Grows id (Tree.caseAt v cases) next new) :
    Grows id (.load mask cases) next (.load mask (Tree.setCase v new cases)) := by
  obtain ⟨before, after, eq, split⟩ := setCase_split v new cases
  have all := casesGrown_iff.mp built.grown.2
  refine Grows.replace (before.flatMap fun c => testIds c.2) (after.flatMap fun c => testIds c.2) below
    ?_ ?_ built ?_
  · rcases split with here | ⟨none, rfl, rfl⟩
    · have ids : (cases.flatMap fun c => testIds c.2) =
          (before ++ (v, Tree.caseAt v cases) :: after).flatMap fun c => testIds c.2 :=
        congrArg (List.flatMap _) here
      rw [testIds_load, ids]
      simp
    · simp [none]
  · simp [eq]
  · refine ⟨by simp [eq], casesGrown_iff.mpr fun c mem => ?_⟩
    rcases Tree.mem_setCase mem with rfl | old
    · exact below.built.grown
    · exact all c old

/-- The first case of a new load node. -/
theorem Grows.newLoad {id next : Nat} {node : Node} (mask : Mask) (v : Nat)
    (below : Grows id .unexplored next node) :
    Grows id .unexplored next (.load mask [(v, node)]) := by
  obtain ⟨later, ⟨grown, nodup, given⟩, new⟩ := below
  exact ⟨later, ⟨⟨by simp, grown, trivial⟩, by simpa using nodup, by simpa using given⟩,
    by simpa using new⟩

/-- A new test node takes the next id; what is below it has got later ones. -/
theorem Grows.newTest {id next : Nat} {node : Node} (pred : Field) (ret : Bool) (prio : Nat)
    (below : Grows (id + 1) .unexplored next node) :
    Grows id .unexplored next (.test pred { id := id, prio := prio }
      (if ret then node else .unexplored) (if ret then .unexplored else node)) := by
  obtain ⟨later, ⟨grown, nodup, given⟩, new⟩ := below
  simp only [testIds_unexplored, List.not_mem_nil, false_or] at new
  have fresh : id ∉ testIds node := fun mem => absurd (new id mem) (by omega)
  have ids : testIds (.test pred { id := id, prio := prio } (if ret then node else .unexplored)
      (if ret then .unexplored else node)) = testIds node ++ [id] := by
    cases ret <;> simp
  refine ⟨by omega, ⟨?_, ?_, ?_⟩, ?_⟩
  · cases ret
    · exact ⟨trivial, grown⟩
    · exact ⟨grown, trivial⟩
  · rw [ids]
    refine List.nodup_append.mpr ⟨nodup, List.nodup_singleton id, fun i mem j memJ same => ?_⟩
    obtain rfl := List.mem_singleton.mp memJ
    exact fresh (same ▸ mem)
  · simp only [ids, List.forall_mem_append, List.forall_mem_singleton]
    exact ⟨given, by omega⟩
  · simp only [ids, List.forall_mem_append, List.forall_mem_singleton]
    exact ⟨fun i mem => .inr (Nat.le_of_succ_le (new i mem)), .inr le_rfl⟩

theorem trace_grows (flow : FlowId) (last : Packet) :
    ∀ (calls : List (TraceCall × Packet)) (c : Cursor) (id : Nat) {node : Node}, WellBuilt id node →
      Grows id node (trace flow last calls c id node).nextId (trace flow last calls c id node).node
  | [], c, id, node, built => by
      rw [trace]
      cases node with
      | unexplored =>
          rw [finish]
          split
          · exact .same built
          · exact ⟨le_rfl, ⟨trivial, by simp [installing], by simp [installing]⟩, by simp [installing]⟩
      | leaf l =>
          exact ⟨le_rfl, ⟨trivial, by simp [finish, installing], by simp [finish, installing]⟩,
            by simp [finish, installing]⟩
      | test need info pos neg => exact .same built
      | load mask cases => exact .same built
  | (.load data, y) :: calls, c, id, node, built => by
      cases node with
      | unexplored =>
          rw [trace]
          exact .newLoad data.mask (valueBits data)
            (trace_grows flow last calls (c.load data) id (wellBuilt_unexplored id))
      | leaf l => exact .same built
      | test need info pos neg => exact .same built
      | load mask cases =>
          rw [trace]
          split
          · exact .setCase built (trace_grows flow last calls (c.load data) id (built.caseAt _))
          · exact .same built
  | (.test pred ret, y) :: calls, c, id, node, built => by
      cases node with
      | unexplored =>
          rw [trace]
          split
          · exact .same built
          · exact .newTest pred ret c.middle
              (trace_grows flow last calls (c.test pred ret c.middle) (id + 1)
                (wellBuilt_unexplored (id + 1)))
      | leaf l => exact .same built
      | load mask cases => exact .same built
      | test need info pos neg =>
          rw [trace]
          split
          · cases ret with
            | true =>
                have below := trace_grows flow last calls
                  (c.test pred true info.prio) id built.positive
                exact below.replace [] (testIds neg ++ [info.id]) (by simp) (by simp) built
                  ⟨below.built.grown, built.negative.grown⟩
            | false =>
                have below := trace_grows flow last calls
                  (c.test pred false info.prio) id built.negative
                exact below.replace (testIds pos) [info.id] (by simp) (by simp) built
                  ⟨built.positive.grown, below.built.grown⟩
          · exact .same built

/-! ## Updates -/

/-- An update keeps the tests and loads. -/
theorem testIds_assignPriorities {node : Node} : ∀ {left right : ℚ},
    testIds (assignPriorities left right node) = testIds node := by
  induction node using Tree.induct with
  | unexplored => exact fun {_ _} => rfl
  | leaf l => exact fun {_ _} => rfl
  | test need info pos neg ihP ihN => simp [assignPriorities, ihP, ihN]
  | load mask cases ih =>
      intro left right
      rw [assignPriorities, assignCases_eq, testIds_load, testIds_load, List.flatMap_map]
      exact List.flatMap_congr fun c mem => ih c mem

/-- The tree without its priorities. -/
def bare : Node → Node
  | .unexplored => .unexplored
  | .leaf l => .leaf { l with prio := 0 }
  | .test need info pos neg => .test need { info with prio := 0 } (bare pos) (bare neg)
  | .load mask cases => .load mask (bareCases cases)
where
  bareCases : List (Nat × Node) → List (Nat × Node)
    | [] => []
    | (bits, node) :: rest => (bits, bare node) :: bareCases rest

theorem bareCases_eq (cases : List (Nat × Node)) :
    bare.bareCases cases = cases.map fun c => (c.1, bare c.2) := by
  induction cases with
  | nil => rfl
  | cons c rest ih => simp [bare.bareCases, ih]

/-- An update changes priorities only. -/
theorem bare_assignPriorities {node : Node} : ∀ {left right : ℚ},
    bare (assignPriorities left right node) = bare node := by
  induction node using Tree.induct with
  | unexplored => exact fun {_ _} => rfl
  | leaf l => exact fun {_ _} => rfl
  | test need info pos neg ihP ihN => simp [assignPriorities, bare, ihP, ihN]
  | load mask cases ih =>
      intro left right
      rw [assignPriorities, assignCases_eq, bare, bare, bareCases_eq, bareCases_eq, List.map_map]
      refine congrArg (Tree.load mask) (List.map_congr_left fun c mem => ?_)
      exact congrArg (Prod.mk c.1) (ih c mem)

theorem grown_assignPriorities {node : Node} : ∀ {left right : ℚ}, Grown node →
    Grown (assignPriorities left right node) := by
  induction node using Tree.induct with
  | unexplored => exact fun {_ _} _ => trivial
  | leaf l => exact fun {_ _} _ => trivial
  | test need info pos neg ihP ihN => exact fun {_ _} grown => ⟨ihP grown.1, ihN grown.2⟩
  | load mask cases ih =>
      rintro left right ⟨some, grown⟩
      rw [assignPriorities, assignCases_eq]
      refine ⟨by simpa using some, casesGrown_iff.mpr ?_⟩
      rw [List.forall_mem_map]
      exact fun c mem => ih c mem (casesGrown_iff.mp grown c mem)

theorem WellBuilt.assignPriorities {id : Nat} {node : Node} (built : WellBuilt id node) (left right : ℚ) :
    WellBuilt id (assignPriorities left right node) where
  grown := grown_assignPriorities built.grown
  nodup := by
    rw [testIds_assignPriorities]
    exact built.nodup
  given := by
    rw [testIds_assignPriorities]
    exact built.given

/-- In such a tree the updater finds all tests in its map. -/
theorem WellBuilt.priorityUpdater {id : Nat} {node : Node} (built : WellBuilt id node) (left right : Nat) :
    priorityUpdater left right node = some (Maple.assignPriorities left right node) :=
  assignBy_of_lookup fun _ mem => lookup_of_nodup built.nodup mem

/-- The trees there are: of any traces, whatever becomes of them, and of updates. Ids are also given to
other trees. -/
inductive Built : Nat → Node → Prop where
  | empty (id : Nat) : Built id .unexplored
  | traced {id : Nat} {node : Node} (flow : FlowId) (last : Packet) (calls : List (TraceCall × Packet))
      (c : Cursor) (built : Built id node) :
      Built (trace flow last calls c id node).nextId (trace flow last calls c id node).node
  | updated {id : Nat} {node node' : Node} (left right : Nat) (built : Built id node)
      (result : priorityUpdater left right node = some node') : Built id node'
  | given {id id' : Nat} {node : Node} (later : id ≤ id') (built : Built id node) : Built id' node

theorem Built.wellBuilt {id : Nat} {node : Node} (built : Built id node) : WellBuilt id node := by
  induction built with
  | empty id => exact wellBuilt_unexplored id
  | traced flow last calls c _ ih => exact (trace_grows flow last calls c _ ih).built
  | updated left right _ result ih =>
      rw [ih.priorityUpdater] at result
      exact Option.some.inj result ▸ ih.assignPriorities left right
  | given later _ ih => exact ⟨ih.grown, ih.nodup, fun i mem => (ih.given i mem).trans_le later⟩

/-- **In a space of twice what the tree counts, an update puts every test above what fails it and below
what passes it, and all between the ends; nothing but priorities is changed.** -/
theorem update_separates {id : Nat} {node : Node} (built : Built id node) {left right : Nat}
    (space : left + 2 * depthCount node ≤ right) :
    ∃ node', priorityUpdater left right node = some node' ∧ bare node' = bare node ∧ Separated node' ∧
      ∀ prio ∈ prios node', left < prio ∧ prio < right := by
  have wide : (left : ℚ) + 2 * depthCount node ≤ right := by exact_mod_cast space
  obtain ⟨separated, bounds⟩ :=
    assignPriorities_separated built.wellBuilt.grown (by positivity : (0 : ℚ) ≤ left) wide
  rw [roundPrio_natCast, roundPrio_natCast] at bounds
  exact ⟨_, built.wellBuilt.priorityUpdater left right, bare_assignPriorities, separated, bounds⟩

/-- The tree of a runtime is built so, and its update is the updater. -/
theorem runtime_built {D : Type} [Inhabited D] (policy : Handler D) (left right : Nat)
    (es : List RuntimeEvent) :
    let r := final (runtimeStep policy) (.initial left right) es
    Built r.nextId r.root ∧ priorityUpdater r.leftPrio r.rightPrio r.root = some r.update.root := by
  have step (r : Runtime D) (e : RuntimeEvent) (built : Built r.nextId r.root) :
      Built (runtimeStep policy r e).nextId (runtimeStep policy r e).root := by
    cases e with
    | release flow => exact built
    | update => exact .updated r.leftPrio r.rightPrio built (built.wellBuilt.priorityUpdater _ _)
    | augment x reuse =>
        refine .traced _ _ _ _ ?_
        rw [Runtime.flowFor]
        split
        · split <;> exact built
        · exact built
  have built := invariant_final (fun r : Runtime D => Built r.nextId r.root) step es
    (s := .initial left right) (.empty _)
  exact ⟨built, built.wellBuilt.priorityUpdater _ _⟩

end

open scoped Drunos.Oxm.OpenflowBasic in
/-- A test and a flow under it, in the least space. -/
theorem update_separates_smallest :
    let x := OpenflowBasic.packet []
    let node := (trace 0 x [(.test (.exactly ethType 0x800#16) true, x)] ⟨10, 100, ∅⟩ 1 .unexplored).node
    ∃ node', priorityUpdater 10 16 node = some node' ∧ bare node' = bare node ∧ Separated node' ∧
      ∀ prio ∈ prios node', 10 < prio ∧ prio < 16 :=
  update_separates (.traced _ _ _ _ (.empty _)) (by decide)

end Drunos.Maple
