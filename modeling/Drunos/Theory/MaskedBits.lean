/-
# Drunos.Theory.MaskedBits — bit strings of which only some bits are known

A `MaskedBits n` is a value and a mask of `n` bits, the value zero outside the
mask. It stands for a test (`Matches`: the bits under the mask have the value),
for what is known of a bit string (the same), and for an assignment (`write`:
the bits under the mask get the value). `overwrite` composes two assignments,
`restrict` and `without` forget bits. Position by position it is a partial map
(`bit`), and these are the operations of partial maps.
-/
import Drunos.Theory.PartialMap
import Mathlib.Data.BitVec

namespace Drunos.Theory

set_option autoImplicit false

/-- A value of `n` bits of which those under the mask count. -/
@[ext]
structure MaskedBits (n : Nat) where
  value : BitVec n
  mask : BitVec n
  masked : value &&& mask = value
  deriving DecidableEq

namespace MaskedBits

variable {n : Nat}

/-- The bits of `v` under `m`. -/
def read (v m : BitVec n) : MaskedBits n where
  value := v &&& m
  mask := m
  masked := by rw [BitVec.and_assoc, BitVec.and_self]

/-- All bits of `v`. -/
def exactly (v : BitVec n) : MaskedBits n where
  value := v
  mask := BitVec.allOnes n
  masked := BitVec.and_allOnes

/-- Nothing is known. -/
def unknown : MaskedBits n where
  value := 0
  mask := 0
  masked := BitVec.and_zero

instance : Inhabited (MaskedBits n) := ⟨unknown⟩

def exact (b : MaskedBits n) : Bool := b.mask = BitVec.allOnes n

def wildcard (b : MaskedBits n) : Bool := b.mask = 0

/-- `v` has the known bits. -/
def Matches (b : MaskedBits n) (v : BitVec n) : Prop := v &&& b.mask = b.value

instance (b : MaskedBits n) (v : BitVec n) : Decidable (b.Matches v) :=
  inferInstanceAs (Decidable (_ = _))

/-- The known bits under `m`. -/
def restrict (b : MaskedBits n) (m : BitVec n) : MaskedBits n where
  value := b.value &&& m
  mask := b.mask &&& m
  masked := by
    rw [BitVec.and_assoc, ← BitVec.and_assoc m, BitVec.and_comm m, BitVec.and_assoc b.mask,
      BitVec.and_self, ← BitVec.and_assoc, b.masked]

/-- The known bits outside `m`. -/
def without (b : MaskedBits n) (m : BitVec n) : MaskedBits n := b.restrict (~~~m)

/-- `v` with the known bits put in. -/
def write (b : MaskedBits n) (v : BitVec n) : BitVec n := (v &&& ~~~b.mask) ||| b.value

theorem value_bit (b : MaskedBits n) (i : Nat) :
    (b.value.getLsbD i && b.mask.getLsbD i) = b.value.getLsbD i := by
  rw [← BitVec.getLsbD_and, b.masked]

/-- First `a` is known or assigned, then `b`. -/
def overwrite (a b : MaskedBits n) : MaskedBits n where
  value := b.write a.value
  mask := a.mask ||| b.mask
  masked := by
    apply BitVec.eq_of_getLsbD_eq
    intro i _
    have left := a.value_bit i
    have right := b.value_bit i
    simp only [write, BitVec.getLsbD_and, BitVec.getLsbD_or, BitVec.getLsbD_not]
    grind

/-- The two agree on the bits both know. -/
def Compatible (a b : MaskedBits n) : Prop :=
  a.value &&& (a.mask &&& b.mask) = b.value &&& (a.mask &&& b.mask)

instance (a b : MaskedBits n) : Decidable (a.Compatible b) :=
  inferInstanceAs (Decidable (_ = _))

/-! ## Bit by bit -/

theorem matches_iff {b : MaskedBits n} {v : BitVec n} :
    b.Matches v ↔ ∀ i < n, b.mask.getLsbD i = true → v.getLsbD i = b.value.getLsbD i := by
  constructor
  · intro h i _ known
    rw [← h, BitVec.getLsbD_and, known, Bool.and_true]
  · intro h
    apply BitVec.eq_of_getLsbD_eq
    intro i bound
    rw [BitVec.getLsbD_and]
    have bit := b.value_bit i
    cases known : b.mask.getLsbD i with
    | true => simpa using h i bound known
    | false => simpa [known] using bit

theorem compatible_iff {a b : MaskedBits n} :
    a.Compatible b ↔ ∀ i < n, a.mask.getLsbD i = true → b.mask.getLsbD i = true →
      a.value.getLsbD i = b.value.getLsbD i := by
  constructor
  · intro h i _ left right
    have bit := congrArg (·.getLsbD i) h
    simpa [left, right] using bit
  · intro h
    apply BitVec.eq_of_getLsbD_eq
    intro i bound
    simp only [BitVec.getLsbD_and]
    cases left : a.mask.getLsbD i with
    | false => simp
    | true =>
        cases right : b.mask.getLsbD i with
        | false => simp
        | true => simpa using h i bound left right

@[simp] theorem read_matches (v m : BitVec n) : (read v m).Matches v := rfl

@[simp] theorem exactly_matches {v w : BitVec n} : (exactly v).Matches w ↔ w = v := by
  simp [Matches, exactly]

@[simp] theorem unknown_matches (v : BitVec n) : (unknown : MaskedBits n).Matches v := by
  simp [Matches, unknown]

@[simp] theorem read_mask (v m : BitVec n) : (read v m).mask = m := rfl

/-- What fits a value known fully in all that is asked matches it. -/
theorem Matches.of_within {f g : MaskedBits n} {v : BitVec n} (has : f.Matches v)
    (wider : f.mask &&& g.mask = g.mask) (compatible : f.Compatible g) : g.Matches v := by
  rw [matches_iff] at has ⊢
  rw [compatible_iff] at compatible
  intro i bound asked
  have known : f.mask.getLsbD i = true := by
    have bit := congrArg (·.getLsbD i) wider
    simpa [asked] using bit
  rw [has i bound known, compatible i bound known asked]

theorem read_matches_iff {v w m : BitVec n} :
    (read v m).Matches w ↔ (read w m).value.toNat = (read v m).value.toNat :=
  BitVec.toNat_inj.symm

theorem exact_iff {b : MaskedBits n} : b.exact = true ↔ b.mask = BitVec.allOnes n :=
  decide_eq_true_iff

theorem read_wildcard (v m : BitVec n) : (read v m).wildcard = true ↔ m = 0 :=
  decide_eq_true_iff

theorem read_ofNat (v m : BitVec n) :
    read (BitVec.ofNat n (read v m).value.toNat) m = read v m := by
  rw [BitVec.ofNat_toNat, BitVec.setWidth_eq]
  refine MaskedBits.ext ?_ rfl
  show v &&& m &&& m = v &&& m
  rw [BitVec.and_assoc, BitVec.and_self]

theorem read_value (b : MaskedBits n) : read (BitVec.ofNat n b.value.toNat) b.mask = b := by
  rw [BitVec.ofNat_toNat, BitVec.setWidth_eq]
  exact MaskedBits.ext b.masked rfl

theorem Matches.restrict {b : MaskedBits n} {v : BitVec n} (h : b.Matches v) (m : BitVec n) :
    (b.restrict m).Matches v := by
  show v &&& (b.mask &&& m) = b.value &&& m
  rw [← BitVec.and_assoc, h]

/-- What a value matches is what can be read of it. -/
theorem eq_read {b : MaskedBits n} {v : BitVec n} (h : b.Matches v) : b = read v b.mask :=
  MaskedBits.ext h.symm rfl

/-- Of an exact pattern everything is known. -/
theorem eq_exactly {b : MaskedBits n} (h : b.exact = true) : b = exactly b.value := by
  refine MaskedBits.ext rfl ?_
  simpa [exact, exactly] using h

theorem exact_matches {b : MaskedBits n} {v : BitVec n} (h : b.exact = true) :
    b.Matches v ↔ v = b.value := by
  rw [eq_exactly h]
  exact exactly_matches

/-! ## Assigning -/

theorem write_bit (b : MaskedBits n) (v : BitVec n) {i : Nat} (bound : i < n) :
    (b.write v).getLsbD i =
      if b.mask.getLsbD i then b.value.getLsbD i else v.getLsbD i := by
  have bit := b.value_bit i
  simp only [write, BitVec.getLsbD_and, BitVec.getLsbD_or, BitVec.getLsbD_not, bound,
    decide_true, Bool.true_and]
  cases known : b.mask.getLsbD i <;> simp_all

@[simp] theorem overwrite_mask (a b : MaskedBits n) : (a.overwrite b).mask = a.mask ||| b.mask := rfl

theorem overwrite_value_bit (a b : MaskedBits n) {i : Nat} (bound : i < n) :
    (a.overwrite b).value.getLsbD i =
      if b.mask.getLsbD i then b.value.getLsbD i else a.value.getLsbD i :=
  write_bit b a.value bound

/-- Assigning a composition is assigning one after the other. -/
theorem overwrite_write (a b : MaskedBits n) (v : BitVec n) :
    (a.overwrite b).write v = b.write (a.write v) := by
  apply BitVec.eq_of_getLsbD_eq
  intro i bound
  rw [write_bit _ _ bound, write_bit _ _ bound, write_bit _ _ bound, overwrite_value_bit _ _ bound,
    overwrite_mask, BitVec.getLsbD_or]
  grind

theorem overwrite_matches {a b : MaskedBits n} {v : BitVec n} (left : a.Matches v)
    (right : b.Matches v) : (a.overwrite b).Matches v :=
  matches_iff.mpr fun i bound known => by
    rw [overwrite_value_bit a b bound]
    rw [overwrite_mask, BitVec.getLsbD_or, Bool.or_eq_true] at known
    split
    · exact matches_iff.mp right i bound ‹_›
    · exact matches_iff.mp left i bound (known.resolve_right ‹_›)

theorem write_matches (b : MaskedBits n) (v : BitVec n) : b.Matches (b.write v) :=
  matches_iff.mpr fun i bound known => by rw [write_bit b v bound, if_pos known]

@[simp] theorem unknown_write (v : BitVec n) : (unknown : MaskedBits n).write v = v := by
  simp [write, unknown]

@[simp] theorem unknown_overwrite (b : MaskedBits n) : unknown.overwrite b = b := by
  refine MaskedBits.ext ?_ ?_ <;> simp [overwrite, write, unknown]

@[simp] theorem overwrite_self (b : MaskedBits n) : b.overwrite b = b := by
  refine MaskedBits.ext (BitVec.eq_of_getLsbD_eq fun i bound => ?_) ?_
  · rw [overwrite_value_bit b b bound, ite_self]
  · exact BitVec.or_self

@[simp] theorem exactly_write (v w : BitVec n) : (exactly v).write w = v := by
  simp [write, exactly]

/-- Two compatible assignments leave the known bits of both. -/
theorem Compatible.write_matches {a b : MaskedBits n} (compatible : a.Compatible b) (v : BitVec n) :
    a.Matches (b.write (a.write v)) := by
  rw [matches_iff]
  intro i bound known
  rw [write_bit b _ bound]
  split
  · exact (compatible_iff.mp compatible i bound known ‹_›).symm
  · rw [write_bit a _ bound, if_pos known]

/-- Assigning what is there changes nothing. -/
theorem write_eq_self {b : MaskedBits n} {v : BitVec n} (h : b.Matches v) : b.write v = v := by
  apply BitVec.eq_of_getLsbD_eq
  intro i bound
  rw [write_bit b v bound]
  split
  · exact (matches_iff.mp h i bound ‹_›).symm
  · rfl

/-- An exact assignment leaves nothing of what was there. -/
theorem overwrite_exact {a b : MaskedBits n} (h : b.exact = true) : a.overwrite b = b := by
  rw [eq_exactly h]
  refine MaskedBits.ext (exactly_write _ _) ?_
  simp [exactly]

/-! ## Reading what an assignment left

`c` was assigned to `v`, and bits under `m` are read of the outcome. Those `c`
determines are `c.restrict m`; the others are still those of `v`. -/

theorem restrict_mask (b : MaskedBits n) (m : BitVec n) : (b.restrict m).mask = b.mask &&& m := rfl

theorem restrict_value (b : MaskedBits n) (m : BitVec n) : (b.restrict m).value = b.value &&& m :=
  rfl

theorem exact_restrict {b : MaskedBits n} {m : BitVec n} (all : b.exact = true)
    (asked : m = BitVec.allOnes n) : (b.restrict m).exact = true := by
  refine decide_eq_true ?_
  rw [restrict_mask, of_decide_eq_true all, asked, BitVec.and_self]

/-- The bits under `m` that `c` does not know. -/
def unknownOf (c : MaskedBits n) (m : BitVec n) : BitVec n := m &&& ~~~(c.restrict m).mask

theorem unknownOf_bit (c : MaskedBits n) (m : BitVec n) {i : Nat} (bound : i < n) :
    (c.unknownOf m).getLsbD i = (m.getLsbD i && !c.mask.getLsbD i) := by
  simp only [unknownOf, restrict_mask, BitVec.getLsbD_and, BitVec.getLsbD_not, bound, decide_true,
    Bool.true_and]
  cases m.getLsbD i <;> simp

theorem read_without_known (c : MaskedBits n) (v m : BitVec n) :
    (read (c.write v) m).without (c.restrict m).mask = read v (c.unknownOf m) := by
  refine MaskedBits.ext (BitVec.eq_of_getLsbD_eq fun i bound => ?_) rfl
  have written := write_bit c v bound
  have unknown := unknownOf_bit c m bound
  simp only [without, restrict, read, BitVec.getLsbD_and, BitVec.getLsbD_not, written, unknown,
    bound, decide_true, Bool.true_and]
  cases m.getLsbD i <;> cases c.mask.getLsbD i <;> simp

theorem known_or_read (c : MaskedBits n) (v m : BitVec n) :
    (c.restrict m).value ||| (read v (c.unknownOf m)).value = (read (c.write v) m).value := by
  refine BitVec.eq_of_getLsbD_eq fun i bound => ?_
  have written := write_bit c v bound
  have unknown := unknownOf_bit c m bound
  have bit := c.value_bit i
  simp only [restrict, read, BitVec.getLsbD_and, BitVec.getLsbD_or, written, unknown]
  cases m.getLsbD i <;> cases known : c.mask.getLsbD i <;> simp_all

/-- A test of what an assignment left: the known bits must not contradict it, and
the others are tested. -/
theorem matches_write_iff (c need : MaskedBits n) (v : BitVec n) :
    need.Matches (c.write v) ↔
      (c.restrict need.mask).Compatible need ∧ (need.restrict (c.unknownOf need.mask)).Matches v := by
  simp only [matches_iff, compatible_iff, restrict_mask, restrict_value, BitVec.getLsbD_and]
  constructor
  · intro holds
    refine ⟨fun i bound known asked => ?_, fun i bound asked => ?_⟩
    · have bit := holds i bound asked
      rw [write_bit c v bound] at bit
      simp_all
    · have bit := holds i bound (by simp_all)
      rw [write_bit c v bound] at bit
      have unknown := unknownOf_bit c need.mask bound
      simp_all
  · rintro ⟨known, rest⟩ i bound asked
    rw [write_bit c v bound]
    have unknown := unknownOf_bit c need.mask bound
    rw [asked] at unknown
    have left := known i bound
    have right := rest i bound
    rw [asked] at left right
    cases here : c.mask.getLsbD i with
    | true => simpa [here] using left (by rw [here, Bool.and_true]) rfl
    | false =>
        rw [here] at unknown
        have value := right (by rw [unknown]; rfl)
        rw [unknown] at value
        simpa using value

/-- What is read of the bits a test asks for fits the test when they match it. -/
theorem read_compatible_iff (need : MaskedBits n) (v m : BitVec n) :
    (read v m).Compatible need ↔ (need.restrict m).Matches v := by
  simp only [matches_iff, compatible_iff, read, restrict_mask, restrict_value, BitVec.getLsbD_and]
  constructor
  · intro holds i bound asked
    have bit := holds i bound
    simp_all
  · intro holds i bound known asked
    have bit := holds i bound
    simp_all

theorem unknownOf_of_exact {c : MaskedBits n} (all : c.exact = true) (m : BitVec n) :
    c.unknownOf m = 0 := by
  refine BitVec.eq_of_getLsbD_eq fun i bound => ?_
  rw [unknownOf_bit c m bound, of_decide_eq_true all]
  simp [bound]

theorem unknownOf_of_wildcard {c : MaskedBits n} (none : c.wildcard = true) (m : BitVec n) :
    c.unknownOf m = m := by
  refine BitVec.eq_of_getLsbD_eq fun i bound => ?_
  rw [unknownOf_bit c m bound, of_decide_eq_true none]
  simp

/-- What is known fully stays known. -/
theorem exact_overwrite {a : MaskedBits n} (all : a.exact = true) (b : MaskedBits n) :
    (a.overwrite b).exact = true := by
  refine decide_eq_true (BitVec.eq_of_getLsbD_eq fun i bound => ?_)
  rw [overwrite, BitVec.getLsbD_or, of_decide_eq_true all]
  simp [bound]

theorem wildcard_overwrite {a b : MaskedBits n} (none : a.wildcard = true)
    (nothing : b.wildcard = true) : (a.overwrite b).wildcard = true := by
  refine decide_eq_true ?_
  rw [overwrite_mask, of_decide_eq_true none, of_decide_eq_true nothing]
  exact BitVec.or_self

/-- With what was unknown of it, a value is known fully. -/
theorem overwrite_unknownOf_exact {c b : MaskedBits n}
    (rest : b.mask = c.unknownOf (BitVec.allOnes n)) : (c.overwrite b).exact = true := by
  refine decide_eq_true (BitVec.eq_of_getLsbD_eq fun i bound => ?_)
  rw [overwrite, BitVec.getLsbD_or, rest, unknownOf_bit c _ bound]
  cases c.mask.getLsbD i <;> simp [bound]

theorem unknownOf_subset (c : MaskedBits n) (m : BitVec n) :
    m &&& c.unknownOf m = c.unknownOf m := by
  refine BitVec.eq_of_getLsbD_eq fun i bound => ?_
  rw [BitVec.getLsbD_and, unknownOf_bit c m bound]
  cases m.getLsbD i <;> simp

/-- What a successful test shows is what reading the same bits shows. -/
theorem restrict_eq_read {c need : MaskedBits n} {v : BitVec n}
    (has : (need.restrict (c.unknownOf need.mask)).Matches v) :
    need.restrict (c.unknownOf need.mask) = read v (c.unknownOf need.mask) := by
  rw [eq_read has, restrict_mask, unknownOf_subset]

/-- The known bits of a test under those that are not known yet. -/
theorem without_known (c b : MaskedBits n) :
    b.without (c.restrict b.mask).mask = b.restrict (c.unknownOf b.mask) := by
  refine MaskedBits.ext ?_ ?_
  · show b.value &&& _ = b.value &&& (b.mask &&& _)
    rw [← BitVec.and_assoc, b.masked]
  · show b.mask &&& _ = b.mask &&& (b.mask &&& _)
    rw [← BitVec.and_assoc, BitVec.and_self]

theorem restrict_unknownOf_mask (c b : MaskedBits n) :
    (b.restrict (c.unknownOf b.mask)).mask = c.unknownOf b.mask := unknownOf_subset c b.mask

theorem restrict_unknownOf_wildcard (c b : MaskedBits n) :
    (b.restrict (c.unknownOf b.mask)).wildcard = true ↔ c.unknownOf b.mask = 0 := by
  rw [wildcard, restrict_unknownOf_mask, decide_eq_true_iff]

theorem read_restrict (c : MaskedBits n) (v m : BitVec n) :
    (read v m).restrict (c.unknownOf m) = read v (c.unknownOf m) := by
  refine MaskedBits.ext ?_ (unknownOf_subset c m)
  show v &&& m &&& _ = v &&& _
  rw [BitVec.and_assoc, unknownOf_subset]

/-- What is known is the same, with or without the bits that were known before. -/
theorem overwrite_restrict_mask (a b : MaskedBits n) :
    (a.overwrite (b.restrict (a.unknownOf b.mask))).mask = (a.overwrite b).mask := by
  refine BitVec.eq_of_getLsbD_eq fun i bound => ?_
  rw [overwrite_mask, overwrite_mask, restrict_unknownOf_mask, BitVec.getLsbD_or, BitVec.getLsbD_or,
    unknownOf_bit a _ bound]
  cases a.mask.getLsbD i <;> simp

theorem overwrite_mask_of_known {a b : MaskedBits n} (known : a.unknownOf b.mask = 0) :
    (a.overwrite b).mask = a.mask := by
  refine BitVec.eq_of_getLsbD_eq fun i bound => ?_
  have none : (a.unknownOf b.mask).getLsbD i = false := by simp [known]
  rw [unknownOf_bit a _ bound] at none
  rw [overwrite_mask, BitVec.getLsbD_or]
  cases known : a.mask.getLsbD i with
  | true => rfl
  | false =>
      rw [known, Bool.not_false, Bool.and_true] at none
      rw [none, Bool.false_or]

@[simp] theorem overwrite_unknown (b : MaskedBits n) : b.overwrite unknown = b := by
  refine MaskedBits.ext ?_ ?_ <;> simp [overwrite, write, unknown]

/-- Of one value nothing new is known. -/
theorem overwrite_known {a b : MaskedBits n} {v : BitVec n} (left : a.Matches v)
    (right : b.Matches v) (within : a.mask ||| b.mask = a.mask) : a.overwrite b = a := by
  refine MaskedBits.ext (BitVec.eq_of_getLsbD_eq fun i bound => ?_) within
  rw [overwrite_value_bit a b bound]
  split
  · have known : a.mask.getLsbD i = true := by
      rw [← within, BitVec.getLsbD_or, ‹b.mask.getLsbD i = true›, Bool.or_true]
    rw [← matches_iff.mp right i bound ‹_›, matches_iff.mp left i bound known]
  · rfl

/-- What was known besides is left, and nothing else. -/
theorem overwrite_without {a b : MaskedBits n}
    (free : ∀ i, a.mask.getLsbD i = true → b.mask.getLsbD i = false) :
    (a.overwrite b).without b.mask = a := by
  refine MaskedBits.ext ?_ ?_
  · refine BitVec.eq_of_getLsbD_eq fun i bound => ?_
    have known := a.value_bit i
    simp only [without, restrict_value, BitVec.getLsbD_and, BitVec.getLsbD_not, bound, decide_true,
      Bool.true_and, overwrite_value_bit a b bound]
    cases bit : a.mask.getLsbD i with
    | true => simp [free i bit]
    | false =>
        rw [bit] at known
        cases b.mask.getLsbD i <;> simp_all
  · refine BitVec.eq_of_getLsbD_eq fun i bound => ?_
    simp only [without, restrict_mask, overwrite_mask, BitVec.getLsbD_and, BitVec.getLsbD_or,
      BitVec.getLsbD_not, bound, decide_true, Bool.true_and]
    cases bit : a.mask.getLsbD i with
    | true => simp [free i bit]
    | false => cases b.mask.getLsbD i <;> rfl

/-- Bits put over bits that they agree with add to what is matched. -/
theorem overwrite_matches_iff {a b : MaskedBits n} (compatible : a.Compatible b) {v : BitVec n} :
    (a.overwrite b).Matches v ↔ a.Matches v ∧ b.Matches v := by
  refine ⟨fun has => ⟨?_, ?_⟩, fun both => overwrite_matches both.1 both.2⟩
  · refine matches_iff.mpr fun i bound bit => ?_
    have value := matches_iff.mp has i bound (by simp [bit])
    rw [overwrite_value_bit a b bound] at value
    rw [value]
    split_ifs with other
    · exact (compatible_iff.mp compatible i bound bit other).symm
    · rfl
  · refine matches_iff.mpr fun i bound bit => ?_
    have value := matches_iff.mp has i bound (by simp [bit])
    rwa [overwrite_value_bit a b bound, if_pos bit] at value

theorem compatible_of_free {a b : MaskedBits n}
    (free : ∀ i, a.mask.getLsbD i = true → b.mask.getLsbD i = false) : a.Compatible b :=
  compatible_iff.mpr fun i _ bit other => absurd (free i bit) (by simp [other])

/-! ## As a partial map of positions -/

/-- What is known of one position. -/
def bit (b : MaskedBits n) (i : Nat) : Option Bool :=
  if b.mask.getLsbD i then some (b.value.getLsbD i) else none

theorem bit_eq_some_iff {b : MaskedBits n} {i : Nat} {v : Bool} :
    b.bit i = some v ↔ b.mask.getLsbD i = true ∧ b.value.getLsbD i = v := by
  simp [bit]

@[simp] theorem bit_unknown (i : Nat) : (unknown : MaskedBits n).bit i = none := by
  simp [bit, unknown]

theorem bit_overwrite (a b : MaskedBits n) : (a.overwrite b).bit = PartialMap.union a.bit b.bit := by
  funext i
  by_cases bound : i < n
  · simp only [bit, PartialMap.union_apply, overwrite_value_bit a b bound, overwrite_mask,
      BitVec.getLsbD_or]
    cases b.mask.getLsbD i <;> simp
  · have out : ∀ m : BitVec n, m.getLsbD i = false := fun m => BitVec.getLsbD_of_ge m i (by omega)
    simp [bit, out]

theorem bit_restrict (b : MaskedBits n) (m : BitVec n) (i : Nat) :
    (b.restrict m).bit i = if m.getLsbD i then b.bit i else none := by
  simp only [bit, restrict_mask, restrict_value, BitVec.getLsbD_and]
  cases m.getLsbD i <;> simp

theorem restrict_allOnes (b : MaskedBits n) : b.restrict (BitVec.allOnes n) = b := by
  apply MaskedBits.ext <;> simp [restrict]

theorem bit_without (b : MaskedBits n) (m : BitVec n) :
    (b.without m).bit = PartialMap.without b.bit m.getLsbD := by
  funext i
  rw [without, bit_restrict, PartialMap.without]
  by_cases bound : i < n
  · simp only [BitVec.getLsbD_not, bound, decide_true, Bool.true_and]
    cases m.getLsbD i <;> simp
  · have out : ∀ m : BitVec n, m.getLsbD i = false := fun m => BitVec.getLsbD_of_ge m i (by omega)
    simp [bit, out]

/-- The positions are all there is. -/
theorem ext_bit {a b : MaskedBits n} (same : ∀ i, a.bit i = b.bit i) : a = b := by
  have masks : a.mask = b.mask := by
    apply BitVec.eq_of_getLsbD_eq
    intro i _
    have known := congrArg Option.isSome (same i)
    simpa [bit, apply_ite Option.isSome] using known
  refine MaskedBits.ext (BitVec.eq_of_getLsbD_eq fun i _ => ?_) masks
  have known := same i
  have left := a.value_bit i
  have right := b.value_bit i
  rw [bit, bit, masks] at known
  rw [masks] at left
  cases here : b.mask.getLsbD i <;> simp_all

theorem overwrite_assoc (a b c : MaskedBits n) :
    (a.overwrite b).overwrite c = a.overwrite (b.overwrite c) := by
  apply ext_bit
  simp only [bit_overwrite, PartialMap.union_assoc, implies_true]

theorem wildcard_iff_bit {b : MaskedBits n} : b.wildcard = true ↔ ∀ i, b.bit i = none := by
  rw [wildcard, decide_eq_true_iff]
  constructor
  · intro none i
    simp [bit, none]
  · intro none
    apply BitVec.eq_of_getLsbD_eq
    intro i _
    simpa [bit] using none i

theorem wildcard_eq_false_iff {b : MaskedBits n} :
    b.wildcard = false ↔ ∃ i v, b.bit i = some v := by
  rw [← Bool.not_eq_true, wildcard_iff_bit]
  simp only [not_forall, ← ne_eq, Option.ne_none_iff_exists']

theorem compatible_iff_bit {a b : MaskedBits n} :
    a.Compatible b ↔ ∀ i v w, a.bit i = some v → b.bit i = some w → v = w := by
  rw [compatible_iff]
  constructor
  · intro agree i v w left right
    obtain ⟨known, rfl⟩ := bit_eq_some_iff.mp left
    obtain ⟨asked, rfl⟩ := bit_eq_some_iff.mp right
    exact agree i (BitVec.lt_of_getLsbD known) known asked
  · intro agree i _ known asked
    exact agree i _ _ (bit_eq_some_iff.mpr ⟨known, rfl⟩) (bit_eq_some_iff.mpr ⟨asked, rfl⟩)

end MaskedBits

end Drunos.Theory
