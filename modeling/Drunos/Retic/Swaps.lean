/-
# Drunos.Retic.Swaps — where a parallel composition ends

The composition of two nodes swaps its arguments when they are in the wrong order and goes on.
Two different tests may be in the wrong order both ways (`Tied`): those of one type with one value
under two masks, and those of one id in namespaces half of all apart, of which `compare_types` finds
none the greater. Their composition swaps for ever. All other calls come closer to an end
(`rank_lt`), so a composition ends exactly if it never comes to two tied tests
(`parallelComposition_ends_iff`).
-/
import Drunos.Retic.Retests

namespace Drunos.Retic

open Drunos.Oxm Drunos.Theory

set_option autoImplicit false

theorem half_toNat (t u : OxmType) :
    t.ns = u.ns + 0x8000 ↔ t.ns.toNat = (u.ns.toNat + 0x8000) % 65536 := by
  rw [← BitVec.toNat_inj, BitVec.toNat_add]
  rfl

/-- The types that `compare_types` leaves unordered. -/
theorem compareTypes_none {t u : OxmType} (ne : t ≠ u) :
    (¬compareTypes t u > 0 ∧ ¬compareTypes u t > 0) ↔ t.id = u.id ∧ t.ns = u.ns + 0x8000 := by
  have codes : typeCode t ≠ typeCode u := fun same => ne (typeCode_inj same)
  have id := t.id.isLt
  have id' := u.id.isLt
  have ns := t.ns.isLt
  have ns' := u.ns.isLt
  rw [compareTypes_eq, compareTypes_eq, ← BitVec.toNat_inj, half_toNat]
  simp only [typeCode, Int.bmod] at codes ⊢
  omega

section

variable [OxmTypes] {T : Type} [Inhabited T]

/-! ## Tests without an order -/

/-- Different tests of which none comes before the other. -/
def Tied (f g : Field) : Prop :=
  (f ≠ g ∧ f.type = g.type ∧ f.bits.value.toNat = g.bits.value.toNat) ∨
    (f.type.id = g.type.id ∧ f.type.ns = g.type.ns + 0x8000)

theorem tied_iff {f g : Field} : Tied f g ↔ f ≠ g ∧ ¬Before f g ∧ ¬Before g f := by
  by_cases same : f.type = g.type
  · have values : f.bits.value.toNat = g.bits.value.toNat ↔
        ¬f.bits.value.toNat < g.bits.value.toNat ∧ ¬g.bits.value.toNat < f.bits.value.toNat := by
      omega
    simp [Tied, Before, same, values]
  · have ne : f ≠ g := fun eq => same (congrArg Field.type eq)
    have types := compareTypes_none same
    have same' : ¬g.type = f.type := fun eq => same eq.symm
    simp only [Tied, Before, same, same', ne, false_and, and_false, false_or, not_false_eq_true,
      true_and, ne_eq, ← types]

theorem Tied.ne {f g : Field} (tied : Tied f g) : f ≠ g := (tied_iff.mp tied).1

theorem Tied.symm {f g : Field} (tied : Tied f g) : Tied g f := by
  rw [tied_iff] at tied ⊢
  exact ⟨tied.1.symm, tied.2.2, tied.2.1⟩

theorem before_or_tied {f g : Field} (ne : f ≠ g) : Before f g ∨ Before g f ∨ Tied f g := by
  rw [tied_iff]
  tauto

/-! ## Calls -/

/-- A call with two nodes of tied tests. -/
def TiedCall : Diagram T × Diagram T → Prop
  | (.node f _ _, .node g _ _) => Tied f g
  | _ => False

/-- Of all calls that follow from the one none is of tied tests. -/
def Untied (lhs rhs : Diagram T) : Prop :=
  ∀ call, Relation.ReflTransGen (fun call call' => call' ∈ parallelCalls call) (lhs, rhs) call →
    ¬TiedCall call

omit [Inhabited T] in
theorem untied_iff {lhs rhs : Diagram T} : Untied lhs rhs ↔
    ¬TiedCall (lhs, rhs) ∧ ∀ call ∈ parallelCalls (lhs, rhs), Untied call.1 call.2 :=
  follows_iff

instance (f g : Field) : Decidable (Before f g) := inferInstanceAs (Decidable (_ ∨ _))

/-- One if the arguments are to be swapped. -/
def swaps : Diagram T × Diagram T → Nat
  | (.leaf _, .node _ _ _) => 1
  | (.node f _ _, .node g _ _) => if Before g f then 1 else 0
  | _ => 0

def rank (call : Diagram T × Diagram T) : Nat := 2 * (call.1.size + call.2.size) + swaps call

omit [Inhabited T] in
theorem swaps_le (call : Diagram T × Diagram T) : swaps call ≤ 1 := by
  unfold swaps
  split <;> try split
  all_goals simp

omit [Inhabited T] in
theorem rank_lt_of_size {call call' : Diagram T × Diagram T}
    (smaller : call'.1.size + call'.2.size < call.1.size + call.2.size) : rank call' < rank call := by
  have bound := swaps_le call'
  simp only [rank]
  omega

omit [Inhabited T] in
/-- A call that is not of tied tests comes closer to an end. -/
theorem rank_lt {call call' : Diagram T × Diagram T} (untied : ¬TiedCall call)
    (mem : call' ∈ parallelCalls call) : rank call' < rank call := by
  match call with
  | (.leaf l, .leaf r) => exact absurd mem List.not_mem_nil
  | (.node f pos neg, .leaf r) =>
      simp only [parallelCalls, List.mem_cons, List.not_mem_nil, or_false] at mem
      rcases mem with rfl | rfl <;> refine rank_lt_of_size ?_ <;> simp only [Diagram.size] <;> omega
  | (.leaf l, .node f pos neg) =>
      obtain rfl := List.mem_singleton.mp mem
      simp only [rank, swaps]
      omega
  | (.node f pos neg, .node g pos' neg') =>
      by_cases same : f = g
      · subst same
        rw [parallelCalls_same] at mem
        simp only [List.mem_cons, List.not_mem_nil, or_false] at mem
        rcases mem with rfl | rfl <;> refine rank_lt_of_size ?_ <;> simp only [Diagram.size] <;> omega
      · rcases before_or_tied same with before | after | tied
        · rw [parallelCalls_before before] at mem
          simp only [List.mem_cons, List.not_mem_nil, or_false] at mem
          refine rank_lt_of_size ?_
          rcases mem with rfl | rfl
          · split <;> simp only [Diagram.size] <;> omega
          · simp only [Diagram.size]
            omega
        · rw [parallelCalls_swap same after.asymm, List.mem_singleton] at mem
          subst mem
          have last : ¬Before f g := after.asymm
          simp only [rank, swaps, after, last, if_true, if_false]
          omega
        · exact absurd tied untied

/-! ## Ends -/

omit [Inhabited T] in
theorem Untied.acc {call : Diagram T × Diagram T} (untied : Untied call.1 call.2) :
    Acc (fun call' call => call' ∈ parallelCalls call) call := by
  induction size : rank call using Nat.strong_induction_on generalizing call with
  | _ n ih =>
      obtain ⟨here, below⟩ := untied_iff.mp untied
      refine .intro _ fun call' mem => ?_
      exact ih _ (size ▸ rank_lt here mem) (below call' mem) rfl

omit [Inhabited T] in
theorem halves_isSome {positive negative : Option (Diagram T)} (f : Field) :
    (do
      let positive ← positive
      let negative ← negative
      return Diagram.node f positive negative : Option (Diagram T)).isSome ↔
    positive.isSome ∧ negative.isSome := by
  cases positive <;> cases negative <;> simp

/-- A composition ends if all calls it makes do. -/
theorem isSome_of_calls {call : Diagram T × Diagram T}
    (all : ∀ call' ∈ parallelCalls call, (parallelComposition call'.1 call'.2).isSome) :
    (parallelComposition call.1 call.2).isSome := by
  match call with
  | (.leaf l, .leaf r) => simp [parallelComposition_leaves]
  | (.node f pos neg, .leaf r) =>
      rw [parallelCalls, List.forall_mem_cons, List.forall_mem_singleton] at all
      rw [parallelComposition_node_leaf]
      exact (halves_isSome f).mpr all
  | (.leaf l, .node f pos neg) =>
      rw [parallelCalls, List.forall_mem_singleton] at all
      rw [parallelComposition_leaf_node]
      exact all
  | (.node f pos neg, .node g pos' neg') =>
      by_cases same : f = g
      · subst same
        rw [parallelCalls_same, List.forall_mem_cons, List.forall_mem_singleton] at all
        rw [parallelComposition_same]
        exact (halves_isSome f).mpr all
      · by_cases before : Before f g
        · rw [parallelCalls_before before, List.forall_mem_cons, List.forall_mem_singleton] at all
          rw [parallelComposition_before before]
          exact (halves_isSome f).mpr all
        · rw [parallelCalls_swap same before, List.forall_mem_singleton] at all
          rw [parallelComposition_swap same before]
          exact all

/-- A composition that ends never comes to tied tests. -/
theorem Untied.of_some {lhs rhs d : Diagram T} (result : parallelComposition lhs rhs = some d) :
    Untied lhs rhs := by
  replace result := parallelComposition_result result
  induction result with
  | leaves l r =>
      exact untied_iff.mpr ⟨fun none => none, fun call mem => absurd mem List.not_mem_nil⟩
  | nodeLeaf _ _ untiedP untiedN =>
      rw [untied_iff, parallelCalls, List.forall_mem_cons, List.forall_mem_singleton]
      exact ⟨fun none => none, untiedP, untiedN⟩
  | leafNode _ untied =>
      rw [untied_iff, parallelCalls, List.forall_mem_singleton]
      exact ⟨fun none => none, untied⟩
  | same _ _ untiedP untiedN =>
      rw [untied_iff, parallelCalls_same, List.forall_mem_cons, List.forall_mem_singleton]
      exact ⟨fun tied => Tied.ne tied rfl, untiedP, untiedN⟩
  | before before _ _ untiedP untiedN =>
      rw [untied_iff, parallelCalls_before before, List.forall_mem_cons, List.forall_mem_singleton]
      exact ⟨fun tied => (tied_iff.mp tied).2.1 before, untiedP, untiedN⟩
  | after ne not _ untied =>
      rw [untied_iff, parallelCalls_swap ne not, List.forall_mem_singleton]
      exact ⟨fun tied => (untied_iff.mp untied).1 (Tied.symm tied), untied⟩

omit [Inhabited T] in
theorem parallelCalls_fields {P : Field → Prop} {call call' : Diagram T × Diagram T}
    (left : call.1.AllFields P) (right : call.2.AllFields P) (mem : call' ∈ parallelCalls call) :
    call'.1.AllFields P ∧ call'.2.AllFields P := by
  match call with
  | (.leaf l, .leaf r) => exact absurd mem List.not_mem_nil
  | (.node f pos neg, .leaf r) =>
      revert call'
      rw [parallelCalls, List.forall_mem_cons, List.forall_mem_singleton]
      exact ⟨⟨left.2.1, right⟩, left.2.2, right⟩
  | (.leaf l, .node f pos neg) =>
      obtain rfl := List.mem_singleton.mp mem
      exact ⟨right, left⟩
  | (.node f pos neg, .node g pos' neg') =>
      rw [parallelCalls] at mem
      split_ifs at mem <;> simp only [List.mem_cons, List.not_mem_nil, or_false] at mem
      · rcases mem with rfl | rfl
        · exact ⟨left.2.1, right.2.1⟩
        · exact ⟨left.2.2, right.2.2⟩
      · rcases mem with rfl | rfl
        · exact ⟨left.2.1, right.2.2⟩
        · exact ⟨left.2.2, right⟩
      · subst mem
        exact ⟨right, left⟩
      · rcases mem with rfl | rfl
        · exact ⟨left.2.1, right⟩
        · exact ⟨left.2.2, right⟩
      · subst mem
        exact ⟨right, left⟩

omit [Inhabited T] in
/-- Diagrams with tests of which no two are tied come to no tied tests. -/
theorem untied_of_fields {P : Field → Prop} (apart : ∀ f g, P f → P g → ¬Tied f g) :
    ∀ {lhs rhs : Diagram T}, lhs.AllFields P → rhs.AllFields P → Untied lhs rhs := by
  intro lhs rhs left right call reached
  have kept : call.1.AllFields P ∧ call.2.AllFields P := by
    induction reached with
    | refl => exact ⟨left, right⟩
    | tail _ mem ih => exact parallelCalls_fields ih.1 ih.2 mem
  obtain ⟨lhs, rhs⟩ := call
  cases lhs with
  | leaf l => exact fun none => none
  | node f pos neg =>
      cases rhs with
      | leaf r => exact fun none => none
      | node g pos' neg' => exact apart f g kept.1.1 kept.2.1

/-- A composition ends, and its calls are well founded, exactly if it never comes to tied tests.
Tests with which all compositions end are those of which no two are tied. -/
theorem parallelComposition_ends_iff :
    (∀ lhs rhs : Diagram T,
      ((parallelComposition lhs rhs).isSome ↔ Untied lhs rhs) ∧
        (Acc (fun call' call => call' ∈ parallelCalls call) (lhs, rhs) ↔ Untied lhs rhs)) ∧
    ∀ P : Field → Prop,
      (∀ lhs rhs : Diagram T, lhs.AllFields P → rhs.AllFields P → (parallelComposition lhs rhs).isSome) ↔
        ∀ f g, P f → P g → ¬Tied f g := by
  have ends : ∀ {call : Diagram T × Diagram T},
      Acc (fun call' call => call' ∈ parallelCalls call) call →
        (parallelComposition call.1 call.2).isSome := by
    intro call acc
    induction acc with
    | intro call _ ih => exact isSome_of_calls ih
  have untied : ∀ {lhs rhs : Diagram T}, (parallelComposition lhs rhs).isSome → Untied lhs rhs :=
    fun isSome => (Option.isSome_iff_exists.mp isSome).elim fun d => Untied.of_some
  have acc : ∀ {lhs rhs : Diagram T}, Untied lhs rhs →
      Acc (fun call' call => call' ∈ parallelCalls call) (lhs, rhs) :=
    fun {lhs rhs} => @Untied.acc _ _ (lhs, rhs)
  refine ⟨fun lhs rhs => ⟨⟨untied, fun free => ends (acc free)⟩, fun wf => untied (ends wf), acc⟩,
    fun P => ⟨fun all f g left right => ?_, fun apart lhs rhs left right => ?_⟩⟩
  · have free := untied (all (.node f (.leaf .stop) (.leaf .stop)) (.node g (.leaf .stop) (.leaf .stop))
      ⟨left, trivial, trivial⟩ ⟨right, trivial, trivial⟩)
    exact (untied_iff.mp free).1
  · exact ends (acc (untied_of_fields apart left right))

end

open scoped Drunos.Oxm.OpenflowBasic in
/-- The tests of the upper and of the lower half of an address have the value zero both. -/
theorem parallelComposition_swapsForever : ¬∀ lhs rhs : Diagram Unit, lhs.AllFields Field.Fits →
    rhs.AllFields Field.Fits → (parallelComposition lhs rhs).isSome := by
  intro ends
  let f : Field := ⟨ipv4Src, .read 0 0xffff0000#32⟩
  let g : Field := ⟨ipv4Src, .read 0 0x0000ffff#32⟩
  have fits : f.Fits ∧ g.Fits := by decide
  have tied : Tied f g := .inl ⟨by decide, rfl, rfl⟩
  have some := ends (.node f (.leaf .stop) (.leaf .stop)) (.node g (.leaf .stop) (.leaf .stop))
    ⟨fits.1, trivial, trivial⟩ ⟨fits.2, trivial, trivial⟩
  obtain ⟨d, result⟩ := Option.isSome_iff_exists.mp some
  exact (untied_iff.mp (Untied.of_some result)).1 tied

end Drunos.Retic
