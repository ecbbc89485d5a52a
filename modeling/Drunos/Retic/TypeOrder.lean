/-
# Drunos.Retic.TypeOrder — what `compare_types` orders

The difference of two ids is cut to an `int`, so types are not on a line but on a circle of 2³² ids,
and one comes before another if it is less than half of the circle behind (`compareTypes_pos_iff`).
Half of the circle apart are types with one id in namespaces that differ in the highest bit only:
none of them comes first. And three types with a third of the circle between them come each before
the next one.

A set of types is ordered exactly if it fits into one half of the circle: `compareTypes_order_iff`.
The two namespaces that runos uses do.
-/
import Drunos.Retic.Swaps
import Mathlib.Order.Minimal

namespace Drunos.Retic

open Drunos.Oxm

set_option autoImplicit false

/-- How far the second type is ahead of the first one. -/
def ahead (t u : OxmType) : Nat := (typeCode u + 4294967296 - typeCode t) % 4294967296

theorem typeCode_lt (t : OxmType) : typeCode t < 4294967296 := by
  have ns := t.ns.isLt
  have id := t.id.isLt
  simp only [typeCode]
  omega

theorem compareTypes_pos_iff {t u : OxmType} :
    compareTypes t u > 0 ↔ 0 < ahead t u ∧ ahead t u < 2147483648 := by
  have bound := typeCode_lt t
  have bound' := typeCode_lt u
  rw [compareTypes_eq, ahead]
  simp only [Int.bmod]
  omega

theorem ahead_lt (t u : OxmType) : ahead t u < 4294967296 :=
  Nat.mod_lt _ (by decide)

theorem ahead_eq_zero {t u : OxmType} : ahead t u = 0 ↔ t = u := by
  have bound := typeCode_lt t
  have bound' := typeCode_lt u
  constructor
  · intro none
    rw [ahead] at none
    exact typeCode_inj (by omega)
  · rintro rfl
    rw [ahead]
    omega

/-- The way back is the rest of the circle. -/
theorem ahead_back {t u : OxmType} (ne : t ≠ u) : ahead t u + ahead u t = 4294967296 := by
  have bound := typeCode_lt t
  have bound' := typeCode_lt u
  have codes : typeCode t ≠ typeCode u := fun same => ne (typeCode_inj same)
  simp only [ahead]
  omega

theorem ahead_trans (t u v : OxmType) : ahead t v = (ahead t u + ahead u v) % 4294967296 := by
  have bound := typeCode_lt t
  have bound' := typeCode_lt u
  have bound'' := typeCode_lt v
  simp only [ahead]
  omega

/-- Exactly one of two types comes first, unless they are the same. -/
def ExactlyOne (t u : OxmType) : Prop :=
  t = u ∧ ¬compareTypes t u > 0 ∧ ¬compareTypes u t > 0 ∨
    t ≠ u ∧ compareTypes t u > 0 ∧ ¬compareTypes u t > 0 ∨
      t ≠ u ∧ ¬compareTypes t u > 0 ∧ compareTypes u t > 0

/-- Of two types one comes first, unless they are half of the circle apart. -/
theorem exactlyOne_iff {t u : OxmType} : ExactlyOne t u ↔ ahead t u ≠ 2147483648 := by
  rw [ExactlyOne, compareTypes_pos_iff, compareTypes_pos_iff]
  by_cases same : t = u
  · subst same
    have none := ahead_eq_zero.mpr (rfl : t = t)
    simp [none]
  · have some : ahead t u ≠ 0 := fun none => same (ahead_eq_zero.mp none)
    have bound := ahead_lt t u
    have back := ahead_back same
    simp only [same, not_false_eq_true, true_and, false_and, false_or, ne_eq]
    omega

/-- The types are in a strict total order. -/
structure StrictTotal (P : OxmType → Prop) : Prop where
  one : ∀ t u, P t → P u → ExactlyOne t u
  trans : ∀ t u v, P t → P u → P v → compareTypes t u > 0 → compareTypes u v > 0 →
    compareTypes t v > 0

/-- Of ordered types one is behind all others. -/
theorem StrictTotal.first {P : OxmType → Prop} (total : StrictTotal P) {x : OxmType} (some : P x) :
    ∃ m, P m ∧ ∀ t, P t → ahead m t < 2147483648 := by
  -- the circle is cut half of it behind `x`
  let place (t : OxmType) : Nat := (ahead x t + 2147483648) % 4294967296
  obtain ⟨m, known, least⟩ := exists_minimalFor_of_wellFoundedLT P place ⟨x, some⟩
  have least (t : OxmType) (known : P t) : place m ≤ place t :=
    (Nat.le_total (place m) (place t)).elim id (least known)
  refine ⟨m, known, fun t knownT => Nat.lt_of_not_le fun far => ?_⟩
  have cut : (ahead x m + 2147483648) % 4294967296 ≤ (ahead x t + 2147483648) % 4294967296 :=
    least t knownT
  have boundM := ahead_lt x m
  have boundT := ahead_lt x t
  have boundF := ahead_lt m t
  -- `t` comes before `m`, and `m` before `x`, or is it
  have mt := exactlyOne_iff.mp (total.one m t known knownT)
  have mx := exactlyOne_iff.mp (total.one m x known some)
  have ne : m ≠ t := fun same => by
    have none := ahead_eq_zero.mpr same
    omega
  have behind := ahead_back ne
  have tm : 0 < ahead t m ∧ ahead t m < 2147483648 := by omega
  have round := ahead_trans x m t
  by_cases same : m = x
  · subst same
    have none := ahead_eq_zero.mpr (rfl : m = m)
    omega
  · have back := ahead_back same
    have before := total.trans t m x knownT known some (compareTypes_pos_iff.mpr tm)
      (compareTypes_pos_iff.mpr (by omega))
    have tx := compareTypes_pos_iff.mp before
    have whole := ahead_trans t m x
    omega

/-- Types in one half of the circle are ordered. -/
theorem StrictTotal.of_first {P : OxmType → Prop} {m : OxmType}
    (half : ∀ t, P t → ahead m t < 2147483648) : StrictTotal P where
  one t u knownT knownU := by
    have boundT := half t knownT
    have boundU := half u knownU
    have round := ahead_trans m t u
    have bound := ahead_lt t u
    rw [exactlyOne_iff]
    omega
  trans t u v knownT knownU knownV tu uv := by
    have boundT := half t knownT
    have boundU := half u knownU
    have boundV := half v knownV
    have before := compareTypes_pos_iff.mp tu
    have before' := compareTypes_pos_iff.mp uv
    have first := ahead_trans m t u
    have second := ahead_trans m u v
    have both := ahead_trans t u v
    rw [compareTypes_pos_iff]
    omega

/-- Half of the circle apart are types whose namespaces differ in the highest bit only. -/
theorem ahead_eq_half_iff {t u : OxmType} :
    ahead t u = 2147483648 ↔ t.id = u.id ∧ t.ns = u.ns + 0x8000#16 := by
  have nst := t.ns.isLt
  have nsu := u.ns.isLt
  have idt := t.id.isLt
  have idu := u.id.isLt
  simp only [ahead, typeCode, ← BitVec.toNat_inj, BitVec.toNat_add, BitVec.toNat_ofNat]
  omega

/-- Of two types exactly one comes first unless their namespaces differ in the highest bit only, three
types are ordered as far as they go less than half of the circle, and a set of types is ordered
exactly if it fits into half of the circle. -/
theorem compareTypes_order_iff (t u v : OxmType) (P : OxmType → Prop) :
    (ExactlyOne t u ↔ ¬(t.id = u.id ∧ t.ns = u.ns + 0x8000#16)) ∧
    (compareTypes t u > 0 → compareTypes u v > 0 →
      (compareTypes t v > 0 ↔ ahead t u + ahead u v < 2147483648)) ∧
    (StrictTotal P ↔ (∀ t, ¬P t) ∨ ∃ m, P m ∧ ∀ t, P t → ahead m t < 2147483648) := by
  refine ⟨?_, fun tu uv => ?_, fun total => ?_, ?_⟩
  · rw [exactlyOne_iff, ne_eq, ahead_eq_half_iff]
  · have before := compareTypes_pos_iff.mp tu
    have before' := compareTypes_pos_iff.mp uv
    have both := ahead_trans t u v
    rw [compareTypes_pos_iff]
    omega
  · by_cases some : ∃ t, P t
    · obtain ⟨t, known⟩ := some
      exact .inr (total.first known)
    · exact .inl (not_exists.mp some)
  · rintro (none | ⟨m, -, half⟩)
    · exact ⟨fun t _ known => (none t known).elim, fun t _ _ known => (none t known).elim⟩
    · exact .of_first half

/-- The types of the two namespaces that runos uses are in half of the circle, and ordered. -/
theorem knownNamespaces_ordered :
    StrictTotal KnownNamespace ∧ ExactlyOne ⟨0x8000#16, 2#7⟩ ⟨0x8000#16, 3#7⟩ ∧
      compareTypes ⟨0x8000#16, 2#7⟩ ⟨0x8000#16, 4#7⟩ > 0 := by
  obtain ⟨one, trans, sets⟩ :=
    compareTypes_order_iff ⟨0x8000#16, 2#7⟩ ⟨0x8000#16, 3#7⟩ ⟨0x8000#16, 4#7⟩ KnownNamespace
  refine ⟨sets.mpr (.inr ⟨⟨NON_OPENFLOW, 0#7⟩, .inr rfl, fun t known => ?_⟩), one.mpr (by decide),
    (trans (by decide) (by decide)).mpr (by decide)⟩
  have bounds := typeCode_bounds known
  have least : typeCode ⟨NON_OPENFLOW, 0#7⟩ = 0x74060000 := rfl
  rw [ahead, least]
  omega

/-- Types with one id in the namespaces 0 and 0x8000 do not come before each other, and of types in the
namespaces 0, 0x6000 and 0xc000 each comes before the next one. -/
theorem compareTypes_unordered :
    ¬ExactlyOne ⟨0#16, 0#7⟩ ⟨0x8000#16, 0#7⟩ ∧
      compareTypes ⟨0#16, 0#7⟩ ⟨0x6000#16, 0#7⟩ > 0 ∧
        compareTypes ⟨0x6000#16, 0#7⟩ ⟨0xc000#16, 0#7⟩ > 0 ∧
          ¬compareTypes ⟨0#16, 0#7⟩ ⟨0xc000#16, 0#7⟩ > 0 := by
  refine ⟨?_, by decide, by decide, by decide⟩
  rw [exactlyOne_iff]
  decide

end Drunos.Retic
