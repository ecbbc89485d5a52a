/-
# Drunos.Retic.PathTable — how deep a diagram may be

What a diagram must be for its table to be right, told by its paths: on no path a type is
tested again after a test of it was passed, nor a field twice (`Proper`), and the
priorities suffice (`levels`). Tests of one type in a row on the negative sides share a
level; a test after a test of another type, or on a positive side, takes a new one, which
halves what is left. The range has room for fourteen (`translate_table`).

The number of types on a path does not bound its levels: `alternate_runs_out`.
-/
import Drunos.Retic.TranslatorTable

namespace Drunos.Retic

open Drunos.Oxm Drunos.Theory PriorityTable

set_option autoImplicit false

section

variable [OxmTypes] {T : Type}

/-- The paths to the leaves: the tests, and whether they are passed. -/
def Diagram.paths : Diagram T → List (List (Field × Bool))
  | .leaf _ => [[]]
  | .node f pos neg => (paths pos).map ((f, true) :: ·) ++ (paths neg).map ((f, false) :: ·)

/-- No type is tested again after a test of it was passed, and no field twice. -/
def Proper (path : List (Field × Bool)) : Prop :=
  path.Pairwise fun above below => (above.2 = true → above.1.type ≠ below.1.type) ∧ above.1 ≠ below.1

/-- The types that are tested. -/
def typesOf (path : List (Field × Bool)) : List OxmType := (path.map fun step => step.1.type).dedup

/-- How often a test is no continuation of tests of its type. -/
def levels : Option OxmType → List (Field × Bool) → Nat
  | _, [] => 0
  | previous, (f, passed) :: rest =>
      (if previous = some f.type then 0 else 1) + levels (if passed then none else some f.type) rest

theorem Diagram.forall_paths_node {P : List (Field × Bool) → Prop} {f : Field} {pos neg : Diagram T} :
    (∀ path ∈ (Diagram.node f pos neg).paths, P path) ↔
      (∀ path ∈ pos.paths, P ((f, true) :: path)) ∧ ∀ path ∈ neg.paths, P ((f, false) :: path) := by
  rw [paths, List.forall_mem_append, List.forall_mem_map, List.forall_mem_map]

theorem Diagram.paths_ne_nil (d : Diagram T) : d.paths ≠ [] := by
  induction d with
  | leaf l => exact List.cons_ne_nil _ _
  | node f pos neg ihPos ihNeg => simp [paths, ihPos]

/-- Every test is on some path. -/
theorem Diagram.allFields_of_paths {P : Field → Prop} {d : Diagram T}
    (all : ∀ path ∈ d.paths, ∀ step ∈ path, P step.1) : d.AllFields P := by
  induction d with
  | leaf l => trivial
  | node f pos neg ihPos ihNeg =>
      obtain ⟨allP, allN⟩ := forall_paths_node.mp all
      obtain ⟨path, mem⟩ := List.exists_mem_of_ne_nil _ pos.paths_ne_nil
      refine ⟨allP path mem _ List.mem_cons_self, ihPos fun path mem step here => ?_,
        ihNeg fun path mem step here => ?_⟩
      · exact allP path mem step (List.mem_cons_of_mem _ here)
      · exact allN path mem step (List.mem_cons_of_mem _ here)

theorem Diagram.once_of_proper {d : Diagram T} (proper : ∀ path ∈ d.paths, Proper path) :
    d.Once ∧ d.Distinct := by
  induction d with
  | leaf l => exact ⟨trivial, trivial⟩
  | node f pos neg ihPos ihNeg =>
      obtain ⟨properP, properN⟩ := forall_paths_node.mp proper
      obtain ⟨onceP, distinctP⟩ := ihPos fun path mem => (List.pairwise_cons.mp (properP path mem)).2
      obtain ⟨onceN, distinctN⟩ := ihNeg fun path mem => (List.pairwise_cons.mp (properN path mem)).2
      have others : pos.AllFields fun g => g.type ≠ f.type :=
        allFields_of_paths fun path mem step here =>
          (((List.pairwise_cons.mp (properP path mem)).1 step here).1 rfl).symm
      have new : neg.AllFields fun g => f ≠ g :=
        allFields_of_paths fun path mem step here =>
          ((List.pairwise_cons.mp (properN path mem)).1 step here).2
      exact ⟨⟨others, onceP, onceN⟩, new, distinctP, distinctN⟩

/-! ## Priorities for so many levels -/

namespace Priorities

/-- What is left can be halved so often. -/
structure Spaced (levels : Nat) (s : Priorities) : Prop where
  leaf : s.prioDown + 3 * 2 ^ levels ≤ s.localPrioUp + 2
  split : ∀ m, s.previousMask = some m → s.prioMiddle + 3 * 2 ^ levels ≤ s.prioUp + 2

variable {s : Priorities} {n : Nat} {f : Field}

theorem Spaced.enter (spaced : s.Spaced (n + 1)) (ne : s.previousMask ≠ some f.mask) :
    (s.enter f).Spaced n := by
  have leaf := spaced.leaf
  rw [Nat.pow_succ] at leaf
  rcases s.enter_cases f with ⟨same, -⟩ | next
  · exact absurd same ne
  · rw [next]
    refine ⟨?_, fun _ _ => ?_⟩
    · show s.prioDown + 3 * 2 ^ n ≤ s.localPrioUp / 2 + s.prioDown / 2 + 2
      omega
    · show s.localPrioUp / 2 + s.prioDown / 2 + 3 * 2 ^ n ≤ s.localPrioUp + 2
      omega

theorem Spaced.positive (spaced : (s.enter f).Spaced n) : (s.enter f).positive.Spaced n where
  leaf := spaced.split f.mask (s.enter_previousMask f)
  split := fun _ none => nomatch none

end Priorities

theorem mask_eq_iff {f g : Field} (exact : f.exact = true) (exact' : g.exact = true) :
    f.mask = g.mask ↔ f.type = g.type := by
  constructor
  · exact congrArg Mask.type
  · intro same
    obtain ⟨t, b⟩ := f
    obtain ⟨u, c⟩ := g
    obtain rfl : t = u := same
    exact congrArg (Mask.mk t)
      ((MaskedBits.exact_iff.mp exact).trans (MaskedBits.exact_iff.mp exact').symm)

/-- The levels of the paths are left at the node, and one less below a node that splits. -/
theorem room_of_levels {d : Diagram T} : ∀ {s : Priorities} {n : Nat} {previous : Option Field},
    s.previousMask = previous.map Field.mask → (∀ g, previous = some g → g.exact = true) →
      d.AllFields (fun f => f.exact = true) → s.Spaced n →
        (∀ path ∈ d.paths, levels (previous.map Field.type) path ≤ n) → Room d s := by
  induction d with
  | leaf l => exact fun _ _ _ _ _ => trivial
  | node f pos neg ihPos ihNeg =>
      intro s n previous masks exactPrevious exact spaced enough
      obtain ⟨enoughP, enoughN⟩ := Diagram.forall_paths_node.mp enough
      have same : s.previousMask = some f.mask ↔ previous.map Field.type = some f.type := by
        rw [masks]
        cases previous with
        | none => simp
        | some g =>
            rw [Option.map_some, Option.map_some, Option.some.injEq, Option.some.injEq]
            exact mask_eq_iff (exactPrevious g rfl) exact.1
      obtain ⟨k, spaced', enoughP', enoughN'⟩ : ∃ k, (s.enter f).Spaced k ∧
          (∀ path ∈ pos.paths, levels none path ≤ k) ∧
            ∀ path ∈ neg.paths, levels (some f.type) path ≤ k := by
        by_cases going : s.previousMask = some f.mask
        · have stays : s.enter f = s := if_pos going
          refine ⟨n, by rwa [stays], fun path mem => ?_, fun path mem => ?_⟩
          · have here := enoughP path mem
            rwa [levels, if_pos (same.mp going), Nat.zero_add] at here
          · have here := enoughN path mem
            rwa [levels, if_pos (same.mp going), Nat.zero_add] at here
        · have other := fun again => going (same.mpr again)
          have enough' : ∀ path ∈ pos.paths, 1 + levels none path ≤ n := fun path mem => by
            have here := enoughP path mem
            rwa [levels, if_neg other] at here
          obtain ⟨path, mem⟩ := List.exists_mem_of_ne_nil _ pos.paths_ne_nil
          obtain ⟨k, rfl⟩ : ∃ k, n = k + 1 := ⟨n - 1, by have := enough' path mem; omega⟩
          refine ⟨k, spaced.enter going, fun path mem => ?_, fun path mem => ?_⟩
          · have here := enough' path mem
            omega
          · have here := enoughN path mem
            rw [levels, if_neg other] at here
            simp only [Bool.false_eq_true, if_false] at here
            omega
      refine ⟨?_, ?_, ?_⟩
      · have leaf := spaced'.leaf
        have one : 0 < 2 ^ k := Nat.two_pow_pos k
        rw [s.enter_localPrioUp f] at leaf
        omega
      · have negative := @ihNeg (s.enter f) k (some f) (s.enter_previousMask f)
        refine negative ?_ exact.2.2 spaced' enoughN'
        rintro g ⟨⟩
        exact exact.1
      · have positive := @ihPos (s.enter f).positive k none rfl
        exact positive (fun g none => nomatch none) exact.2.1 spaced'.positive enoughP'

/-! ## The table -/

/-- A diagram of fourteen levels at its place. -/
theorem placed_of_paths {d : Diagram T} (exact : d.AllFields fun f => f.exact = true)
    (proper : ∀ path ∈ d.paths, Proper path) (enough : ∀ path ∈ d.paths, levels none path ≤ 14) :
    Placed d ∅ {} where
  exact := exact
  distinct := (Diagram.once_of_proper proper).2
  once := (Diagram.once_of_proper proper).1
  room := by
    have spaced : Priorities.Spaced 14 {} :=
      ⟨by show 1 + 3 * 2 ^ 14 ≤ 65535 + 2; decide, fun _ none => nomatch none⟩
    have deep := @room_of_levels _ _ d {} 14 none rfl
    exact deep (fun g none => nomatch none) exact spaced enough
  isOpen := ⟨by show 1 < 65535; decide, fun _ none => nomatch none⟩
  fresh := d.allFields_of_forall fun _ => rfl

/-- **The table of a diagram whose paths are proper and have fourteen levels at most: the rule or
barrier of the leaf a packet reaches wins alone, no two rules of one priority match a packet in
common, and all priorities are in the range.** -/
theorem translate_table {d : Diagram T} (exact : d.AllFields fun f => f.exact = true)
    (proper : ∀ path ∈ d.paths, Proper path) (enough : ∀ path ∈ d.paths, levels none path ≤ 14) :
    (∀ x : Packet, WinsAlone (table (translate d ∅ {}).calls) x (d.callAt x ∅ {}).rule ∧
        (d.callAt x ∅ {}).rule.action = (d.leafAt x).actions) ∧
      Untied (table (translate d ∅ {}).calls) ∧
        ∀ r ∈ table (translate d ∅ {}).calls, 1 ≤ r.prio ∧ r.prio ≤ 65535 := by
  have placed := placed_of_paths exact proper enough
  refine ⟨fun x => ⟨translate_callAt_wins placed (FieldSet.test_empty x), d.callAt_action x ∅ {}⟩,
    translate_untied placed, fun r mem => ?_⟩
  obtain ⟨low, high | ⟨g, -, none, -⟩⟩ := translate_region placed exact mem
  · exact ⟨low, Nat.le_of_lt high⟩
  · cases none

end

section

open scoped Drunos.Oxm.OpenflowBasic

def unitLeaf : Diagram Unit := .leaf { mapleTree := () }

/-- Tests of two types in turn, one below the negative side of the other. -/
def alternate : Nat → Diagram Unit
  | 0 => unitLeaf
  | n + 1 =>
      let value : Field := if n % 2 = 0 then .exactly vlanVid (n : BitVec 12) else .exactly ethType (n : BitVec 16)
      .node value unitLeaf (alternate n)

theorem alternate_exact (n : Nat) : (alternate n).AllFields fun f => f.exact = true := by
  induction n with
  | zero => trivial
  | succ n ih =>
      refine ⟨?_, trivial, ih⟩
      dsimp only
      split_ifs <;> exact Field.exactly_exact _ _

/-- Fourteen levels are no more than there is room for. -/
theorem translate_table_alternate :
    (∀ x : Packet, WinsAlone (table (translate (alternate 14) ∅ {}).calls) x ((alternate 14).callAt x ∅ {}).rule ∧
        ((alternate 14).callAt x ∅ {}).rule.action = ((alternate 14).leafAt x).actions) ∧
      Untied (table (translate (alternate 14) ∅ {}).calls) ∧
        ∀ r ∈ table (translate (alternate 14) ∅ {}).calls, 1 ≤ r.prio ∧ r.prio ≤ 65535 := by
  have exact : (alternate 14).AllFields fun f => f.exact = true :=
    alternate_exact 14
  refine translate_table exact ?_ ?_
  · unfold Proper
    decide +kernel
  · decide +kernel

/-- Two types in turn take fifteen levels, and to the last leaf no priority of the range is left. -/
theorem alternate_runs_out :
    ¬∀ d : Diagram Unit, (d.AllFields fun f => f.exact = true) → (∀ path ∈ d.paths, Proper path) →
      (∀ path ∈ d.paths, (typesOf path).length ≤ 12) →
        (∀ x : Packet, WinsAlone (table (translate d ∅ {}).calls) x (d.callAt x ∅ {}).rule) ∧
          Untied (table (translate d ∅ {}).calls) ∧
            ∀ r ∈ table (translate d ∅ {}).calls, 1 ≤ r.prio ∧ r.prio ≤ 65535 := by
  intro all
  have proper : ∀ path ∈ (alternate 15).paths, Proper path := by
    unfold Proper
    decide +kernel
  have types : ∀ path ∈ (alternate 15).paths, (typesOf path).length ≤ 12 := by decide +kernel
  have range := (all (alternate 15) (alternate_exact 15) proper types).2.2
  have lowest : ∃ r ∈ table (translate (alternate 15) ∅ {}).calls, r.prio = 0 := by decide +kernel
  obtain ⟨r, mem, zero⟩ := lowest
  have low := (range r mem).1
  omega

end

end Drunos.Retic
