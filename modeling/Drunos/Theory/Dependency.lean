/-
# Drunos.Theory.Dependency — items with lists of what they depend on

`deps` gives the list of an item that is known, in the order in which it is gone through, and nothing for
one that is missing. An item is complete if nothing missing is reached from it. Whoever goes through
the lists and gives an item up at the first dependency that is not complete tries only some of them
(`Tried`): those in front of which all others are complete.
-/
import Mathlib.Data.List.Induction
import Mathlib.Logic.Relation

namespace Drunos.Theory.Dependency

open Relation

set_option autoImplicit false

variable {ι : Type} (deps : ι → Option (List ι))

def Depends (x d : ι) : Prop := ∃ list, deps x = some list ∧ d ∈ list

def Missing (x : ι) : Prop := deps x = none

/-- Nothing missing is reached. -/
def Complete (x : ι) : Prop := ∀ y, ReflTransGen (Depends deps) x y → ¬Missing deps y

/-- Everything in front of the dependency is complete. -/
def Tried (x d : ι) : Prop :=
  ∃ front back, deps x = some (front ++ d :: back) ∧ ∀ e ∈ front, Complete deps e

/-- Each item of the list stands behind all its dependencies. -/
def Ordered (list : List ι) : Prop :=
  ∀ front x back, list = front ++ x :: back → ∀ d, Depends deps x d → d ∈ front

variable {deps}

theorem Tried.depends {x d : ι} (tried : Tried deps x d) : Depends deps x d := by
  obtain ⟨front, back, list, -⟩ := tried
  exact ⟨_, list, by simp⟩

theorem Complete.of_depends {x d : ι} (complete : Complete deps x) (depends : Depends deps x d) :
    Complete deps d :=
  fun y reached => complete y (.head depends reached)

theorem complete_iff {x : ι} :
    Complete deps x ↔ ∃ list, deps x = some list ∧ ∀ d ∈ list, Complete deps d := by
  constructor
  · intro complete
    obtain ⟨list, known⟩ := Option.ne_none_iff_exists'.mp (complete x .refl)
    exact ⟨list, known, fun d mem => complete.of_depends ⟨list, known, mem⟩⟩
  · rintro ⟨list, known, each⟩ y reached
    rcases reached.cases_head with rfl | ⟨d, ⟨list', known', mem⟩, rest⟩
    · simp [Missing, known]
    · obtain rfl : list = list' := Option.some.inj (known.symm.trans known')
      exact each d mem y rest

theorem not_complete_of_missing {x : ι} (missing : Missing deps x) : ¬Complete deps x :=
  fun complete => complete x .refl missing

/-- Without dependencies. -/
theorem complete_leaf {x : ι} (leaf : deps x = some []) :
    Complete deps x ∧ ∀ y, ReflTransGen (Depends deps) x y → ¬TransGen (Depends deps) y y := by
  have stays (d : ι) : ¬Depends deps x d := by simp [Depends, leaf]
  refine ⟨complete_iff.mpr ⟨[], leaf, by simp⟩, fun y reached cycle => ?_⟩
  rcases reached.cases_head with rfl | ⟨d, depends, -⟩
  · obtain ⟨d, depends, -⟩ := TransGen.head'_iff.mp cycle
    exact stays d depends
  · exact stays d depends

/-- The first dependency that is not complete is the last one tried. -/
theorem Tried.of_first {x s d : ι} {front back : List ι} (list : deps x = some (front ++ s :: back))
    (first : ¬Complete deps s) (tried : Tried deps x d) : d ∈ front ∨ d = s := by
  obtain ⟨front', back', list', complete⟩ := tried
  have same : front ++ s :: back = front' ++ d :: back' := Option.some.inj (list.symm.trans list')
  rcases List.append_eq_append_iff.mp same with ⟨more, rfl, rest⟩ | ⟨more, rfl, rest⟩
  · cases more with
    | nil => exact .inr (List.cons.inj rest).1.symm
    | cons e more =>
        obtain ⟨rfl, -⟩ := List.cons.inj rest
        exact absurd (complete s (by simp)) first
  · cases more with
    | nil => exact .inr (List.cons.inj rest).1
    | cons e more =>
        obtain ⟨rfl, -⟩ := List.cons.inj rest
        exact .inl (by simp)

/-- A number that goes down along the dependencies excludes cycles. -/
theorem acyclic_of_rank (rank : ι → Nat) (down : ∀ x d, Depends deps x d → rank d < rank x)
    (x : ι) : ¬TransGen (Depends deps) x x := by
  have falls {y z : ι} (path : TransGen (Depends deps) y z) : rank z < rank y := by
    induction path with
    | single depends => exact down _ _ depends
    | tail _ depends ih => exact Nat.lt_trans (down _ _ depends) ih
  exact fun cycle => Nat.lt_irrefl _ (falls cycle)

theorem Ordered.concat {list : List ι} {x : ι} (ordered : Ordered deps list)
    (behind : ∀ d, Depends deps x d → d ∈ list) : Ordered deps (list ++ [x]) := by
  intro front y back split d depends
  cases back using List.reverseRecOn with
  | nil =>
      obtain ⟨rfl, same⟩ := List.append_inj' split rfl
      exact behind d (by rwa [(List.cons.inj same).1])
  | append_singleton back z =>
      have init : list = front ++ y :: back := by
        rw [← List.cons_append, ← List.append_assoc] at split
        exact (List.append_inj' split rfl).1
      exact ordered front y back init d depends

/-- A dependency of an item of the list is one too. -/
theorem Ordered.mem {list : List ι} {x d : ι} (ordered : Ordered deps list) (mem : x ∈ list)
    (depends : Depends deps x d) : d ∈ list := by
  obtain ⟨front, back, rfl⟩ := List.append_of_mem mem
  exact List.mem_append_left _ (ordered front x back rfl d depends)

end Drunos.Theory.Dependency
