/-
# Drunos.Theory.Halving — intervals that are halved

An interval of numbers is left for what comes next. Each turn takes the upper or the lower half
of it (`Span.turn`), and where the turns end the sum of the ends is what is given out. What is
given out above a turn is greater than what is given out below it as long as the middle is above
the lower end (`Span.Within`).

When the interval is used up, two sides of a turn may be given the same number. `Tied` says of
the turns that lead somewhere that this happens to them: an upward turn finds no room below the
middle, and what is given out at the end is no more than the lower side gets. From an interval of
`2 ^ n - 1` numbers these are the turns that still go both ways when the room is used up
(`tied_iff`).
-/
import Mathlib.Algebra.Order.Ring.Nat

namespace Drunos.Theory.Halving

set_option autoImplicit false

/-- An interval, by its ends. -/
structure Span where
  lo : Nat
  hi : Nat
  le : lo ≤ hi

namespace Span

def middle (s : Span) : Nat := (s.lo + s.hi) / 2

/-- What is given out where no turn follows. -/
def sum (s : Span) : Nat := s.lo + s.hi

theorem lo_le_middle (s : Span) : s.lo ≤ s.middle := by
  have le := s.le
  rw [middle]
  omega

theorem middle_le_hi (s : Span) : s.middle ≤ s.hi := by
  have le := s.le
  rw [middle]
  omega

def up (s : Span) : Span := ⟨s.middle, s.hi, s.middle_le_hi⟩

def down (s : Span) : Span := ⟨s.lo, s.middle, s.lo_le_middle⟩

/-- A turn upwards, or downwards. -/
def turn (s : Span) (upward : Bool) : Span := if upward then s.up else s.down

def after (s : Span) (turns : List Bool) : Span := turns.foldl turn s

@[simp] theorem up_lo (s : Span) : s.up.lo = s.middle := rfl
@[simp] theorem up_hi (s : Span) : s.up.hi = s.hi := rfl
@[simp] theorem down_lo (s : Span) : s.down.lo = s.lo := rfl
@[simp] theorem down_hi (s : Span) : s.down.hi = s.middle := rfl
@[simp] theorem after_nil (s : Span) : s.after [] = s := rfl
@[simp] theorem after_up (s : Span) (turns : List Bool) :
    s.after (true :: turns) = s.up.after turns := rfl
@[simp] theorem after_down (s : Span) (turns : List Bool) :
    s.after (false :: turns) = s.down.after turns := rfl

theorem after_append (s : Span) (turns turns' : List Bool) :
    s.after (turns ++ turns') = (s.after turns).after turns' :=
  List.foldl_append

/-! ## What is given out -/

/-- A number that may be given out in the interval: twice its upper end only if there is nothing
else in it. -/
structure Within (s : Span) (n : Nat) : Prop where
  low : 2 * s.lo ≤ n
  high : n ≤ 2 * s.hi
  tight : n = 2 * s.hi → s.lo = s.hi

theorem within_sum (s : Span) : s.Within s.sum where
  low := by
    have le := s.le
    rw [sum]
    omega
  high := by
    have le := s.le
    rw [sum]
    omega
  tight := by
    rw [sum]
    omega

theorem Within.of_up {s : Span} {n : Nat} (within : s.up.Within n) : s.Within n where
  low := by
    have low := within.low
    have le := s.lo_le_middle
    rw [up_lo] at low
    omega
  high := within.high
  tight := fun top => by
    have tight := within.tight top
    have le := s.le
    rw [up_lo, up_hi, middle] at tight
    omega

theorem Within.of_down {s : Span} {n : Nat} (within : s.down.Within n) : s.Within n where
  low := within.low
  high := by
    have high := within.high
    have le := s.middle_le_hi
    rw [down_hi] at high
    omega
  tight := fun top => by
    have high := within.high
    have tight := within.tight
    have le := s.le
    rw [down_hi, middle] at high tight
    rw [down_lo] at tight
    omega

theorem Within.of_after {s : Span} {turns : List Bool} {n : Nat} (within : (s.after turns).Within n) :
    s.Within n := by
  induction turns generalizing s with
  | nil => exact within
  | cons upward turns ih =>
      cases upward with
      | true => exact (ih within).of_up
      | false => exact (ih within).of_down

/-- What is given out below a turn is no more than what is given out above it. -/
theorem Within.le {s : Span} {n n' : Nat} (below : s.down.Within n) (above : s.up.Within n') :
    n ≤ n' :=
  below.high.trans above.low

/-- It is less, if there is room below the middle. -/
theorem Within.lt {s : Span} {n n' : Nat} (below : s.down.Within n) (above : s.up.Within n')
    (room : s.middle ≠ s.lo ∨ n' ≠ 2 * s.lo) : n < n' := by
  refine Nat.lt_of_le_of_ne (below.le above) fun same => ?_
  have top : n = 2 * s.down.hi := Nat.le_antisymm below.high (same ▸ above.low)
  have tight : s.lo = s.middle := below.tight top
  rcases room with room | room
  · exact room tight.symm
  · rw [down_hi, ← tight] at top
    omega

/-! ## Ties -/

/-- The turns take an upward one where nothing is left below the middle, and end where no more is
given out than on its lower side. -/
def Tied : Span → List Bool → Prop
  | _, [] => False
  | s, true :: turns => (s.middle = s.lo ∧ (s.up.after turns).sum = 2 * s.lo) ∨ s.up.Tied turns
  | s, false :: turns => s.down.Tied turns

/-- The turns go both ways. -/
def BothWays (turns : List Bool) : Prop := true ∈ turns ∧ false ∈ turns

instance (turns : List Bool) : Decidable (BothWays turns) := inferInstanceAs (Decidable (_ ∧ _))

theorem middle_of_empty {s : Span} (empty : s.lo = s.hi) : s.middle = s.lo := by
  rw [middle]
  omega

theorem middle_of_one {s : Span} (one : s.hi = s.lo + 1) : s.middle = s.lo := by
  rw [middle]
  omega

theorem after_of_empty {s : Span} (empty : s.lo = s.hi) (turns : List Bool) :
    (s.after turns).sum = 2 * s.lo := by
  induction turns generalizing s with
  | nil =>
      rw [after_nil, sum]
      omega
  | cons upward turns ih =>
      have middle := middle_of_empty empty
      cases upward with
      | true => rw [after_up, ih (by rw [up_lo, up_hi]; omega), up_lo, middle]
      | false => rw [after_down, ih (by rw [down_lo, down_hi, middle]), down_lo]

theorem after_of_one {s : Span} (one : s.hi = s.lo + 1) (turns : List Bool) :
    (s.after turns).sum = 2 * s.lo ↔ false ∈ turns := by
  induction turns generalizing s with
  | nil =>
      rw [after_nil, sum]
      simp only [List.not_mem_nil, iff_false]
      omega
  | cons upward turns ih =>
      have middle := middle_of_one one
      cases upward with
      | true =>
          have ih := ih (s := s.up) (by rw [up_lo, up_hi, middle, one])
          rw [up_lo, middle] at ih
          rw [after_up, ih]
          simp
      | false =>
          have empty : s.down.lo = s.down.hi := by rw [down_lo, down_hi, middle]
          rw [after_down, after_of_empty empty, down_lo]
          simp

theorem tied_of_empty {s : Span} (empty : s.lo = s.hi) (turns : List Bool) :
    s.Tied turns ↔ true ∈ turns := by
  induction turns generalizing s with
  | nil => simp [Tied]
  | cons upward turns ih =>
      have middle := middle_of_empty empty
      cases upward with
      | true =>
          have up : s.up.lo = s.up.hi := by rw [up_lo, up_hi]; omega
          have here : (s.up.after turns).sum = 2 * s.lo := by rw [after_of_empty up, up_lo, middle]
          simp [Tied, middle, here]
      | false =>
          rw [Tied, ih (by rw [down_lo, down_hi, middle])]
          simp

theorem tied_of_one {s : Span} (one : s.hi = s.lo + 1) (turns : List Bool) :
    s.Tied turns ↔ BothWays turns := by
  induction turns generalizing s with
  | nil => simp [Tied, BothWays]
  | cons upward turns ih =>
      have middle := middle_of_one one
      cases upward with
      | true =>
          have up : s.up.hi = s.up.lo + 1 := by rw [up_lo, up_hi, middle, one]
          have here := after_of_one up turns
          rw [up_lo, middle] at here
          rw [Tied, ih up, here]
          simp [BothWays, middle]
      | false =>
          rw [Tied, tied_of_empty (by rw [down_lo, down_hi, middle])]
          simp [BothWays]

/-- While there is room below the middle no turn is tied. -/
theorem tied_turn {s : Span} (room : s.lo + 2 ≤ s.hi) (upward : Bool) (turns : List Bool) :
    s.Tied (upward :: turns) ↔ (s.turn upward).Tied turns := by
  cases upward with
  | true =>
      have ne : s.middle ≠ s.lo := by rw [middle]; omega
      rw [Tied]
      simp [ne, turn]
  | false => rfl

/-- From a power of two the room lasts for as many turns. -/
theorem tied_of_pow {s : Span} {n : Nat} (width : s.hi = s.lo + 2 ^ n) (turns : List Bool) :
    s.Tied turns ↔ BothWays (turns.drop n) := by
  induction n generalizing s turns with
  | zero => exact tied_of_one width turns
  | succ n ih =>
      have pos : 0 < 2 ^ n := Nat.two_pow_pos n
      rw [pow_succ] at width
      cases turns with
      | nil => simp [Tied, BothWays]
      | cons upward turns =>
          rw [tied_turn (by omega), List.drop_succ_cons]
          cases upward with
          | true => exact ih (show s.up.hi = s.up.lo + 2 ^ n by rw [up_lo, up_hi, middle]; omega) turns
          | false =>
              exact ih (show s.down.hi = s.down.lo + 2 ^ n by rw [down_lo, down_hi, middle]; omega) turns

/-- The turns that are left when the room of `2 ^ (n + 1) - 1` numbers is used up: a turn upwards
leaves a power of two, so that it lasts for one turn more. -/
def rest (n : Nat) (turns : List Bool) : List Bool :=
  if true ∈ turns.take n then turns.drop (n + 1) else turns.drop n

/-- **From `2 ^ (n + 1) - 1` numbers the turns are tied if and only if they still go both ways when
the room is used up.** -/
theorem tied_iff {s : Span} {n : Nat} (width : s.hi + 1 = s.lo + 2 ^ (n + 1)) (turns : List Bool) :
    s.Tied turns ↔ BothWays (rest n turns) := by
  induction n generalizing s turns with
  | zero =>
      have one : s.hi = s.lo + 1 := by
        rw [Nat.zero_add, pow_one] at width
        omega
      rw [tied_of_one one]
      simp [rest]
  | succ n ih =>
      have pos : 0 < 2 ^ n := Nat.two_pow_pos n
      have twice : 2 ^ (n + 1) = 2 * 2 ^ n := by rw [pow_succ, Nat.mul_comm]
      rw [pow_succ, twice] at width
      cases turns with
      | nil => simp [Tied, BothWays, rest]
      | cons upward turns =>
          rw [tied_turn (by omega)]
          cases upward with
          | true =>
              have power : s.up.hi = s.up.lo + 2 ^ (n + 1) := by
                rw [up_lo, up_hi, middle, twice]
                omega
              have left := tied_of_pow power turns
              simpa [rest, turn] using left
          | false =>
              have left : s.down.Tied turns ↔ BothWays (rest n turns) :=
                ih (by rw [down_lo, down_hi, middle, twice]; omega) turns
              simpa [rest, turn] using left

/-- There is room for the first turns, and one more. -/
theorem bothWays_rest {n : Nat} {turns : List Bool} (both : BothWays (rest n turns)) :
    n + 2 ≤ turns.length := by
  have two {l : List Bool} : BothWays l → 2 ≤ l.length := by
    rintro ⟨up, down⟩
    match l, up, down with
    | [_], up, down =>
        rw [List.mem_singleton] at up down
        rw [← up] at down
        cases down
    | _ :: _ :: l, _, _ => simp
  have left := two both
  rw [rest] at left
  split at left
  · rw [List.length_drop] at left
    omega
  · rw [List.length_drop] at left
    omega

end Span

end Drunos.Theory.Halving
