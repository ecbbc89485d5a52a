/-
# Drunos.Json11.Values — JSON values and their text

A value keeps an `int` or a `double` for a number, and the fields of an object in the order
of their keys. Which doubles there are, and how the C library prints and reads them, is
left open (`Doubles`); what it promises of them is `LawfulDoubles`.

A number that is dumped and read again has another type sometimes. `reread` says what
becomes of a value, which stays equal to it (`equals_reread`).
-/
import Drunos.Json11.Strings
import Drunos.Theory.SortedMap

namespace Drunos.Json11

open Drunos.Theory

set_option autoImplicit false

/-! ## Numbers -/

/-- A text of digits. -/
def IsDigits (t : List Byte) : Prop := t ≠ [] ∧ t.all isDigit = true

/-- The part of a number before its point. -/
inductive IntPart : List Byte → Prop
  | zero : IntPart [byte '0']
  | digits {first : Byte} {rest : List Byte} (nonzero : within first '1' '9' = true)
      (digits : rest.all isDigit = true) : IntPart (first :: rest)

/-- A number without point and exponent. -/
inductive Integral : List Byte → Prop
  | nonneg {t : List Byte} (int : IntPart t) : Integral t
  | neg {t : List Byte} (int : IntPart t) : Integral (byte '-' :: t)

inductive Fraction : List Byte → Prop
  | none : Fraction []
  | some {t : List Byte} (digits : IsDigits t) : Fraction (byte '.' :: t)

inductive Exponent : List Byte → Prop
  | none : Exponent []
  | some {e : Byte} {sign t : List Byte} (letter : e = byte 'e' ∨ e = byte 'E')
      (signs : sign = [] ∨ sign = [byte '+'] ∨ sign = [byte '-']) (digits : IsDigits t) :
      Exponent (e :: sign ++ t)

/-- A number of a JSON text. -/
inductive Lexeme : List Byte → Prop
  | mk {int fraction exponent : List Byte} (isInt : Integral int) (isFraction : Fraction fraction)
      (isExponent : Exponent exponent) : Lexeme (int ++ fraction ++ exponent)

/-- `atoi` of digits. -/
def atoiDigits (t : List Byte) : Nat := t.foldl (fun n ch => n * 10 + (ch.toNat - 48)) 0

/-- `std::atoi` -/
def atoi : List Byte → Int
  | [] => 0
  | ch :: t => if ch = byte '-' then -(atoiDigits t : Int) else atoiDigits (ch :: t)

/-- The type `double`. -/
class Doubles (D : Type) where
  ofInt : BitVec 32 → D
  /-- `std::atof` -/
  atof : List Byte → D
  /-- `%.17g` -/
  print : D → List Byte
  eq : D → D → Bool
  /-- Neither infinite nor `nan`. -/
  finite : D → Prop

open Doubles

/-- What the C library promises. -/
class LawfulDoubles (D : Type) [Doubles D] : Prop where
  eq_self : ∀ d : D, finite d → eq d d = true
  eq_comm : ∀ a b : D, eq a b = eq b a
  finite_ofInt : ∀ n, finite (ofInt n : D)
  /-- Seventeen digits are enough. -/
  print_lexeme : ∀ d : D, finite d → Lexeme (print d)
  atof_print : ∀ d : D, finite d → atof (print d) = d
  /-- An `int` is a `double`. -/
  atof_integral : ∀ (t : List Byte) (n : BitVec 32), Integral t → atoi t = n.toInt →
    eq (atof t : D) (ofInt n) = true

/-! ## Values -/

inductive Json (D : Type) where
  | null
  | int (value : BitVec 32)
  | double (value : D)
  | bool (value : Bool)
  | string (value : List Byte)
  | array (values : List (Json D))
  /-- A `std::map`. -/
  | object (values : List (List Byte × Json D))

variable {D : Type}

mutual

/-- `operator==`, of values of one type. -/
def Json.equals [Doubles D] : Json D → Json D → Bool
  | .null, .null => true
  | .int a, .int b => eq (ofInt a : D) (ofInt b)
  | .int a, .double b => eq (ofInt a) b
  | .double a, .int b => eq a (ofInt b)
  | .double a, .double b => eq a b
  | .bool a, .bool b => a == b
  | .string a, .string b => a == b
  | .array a, .array b => equalValues a b
  | .object a, .object b => equalFields a b
  | _, _ => false

def equalValues [Doubles D] : List (Json D) → List (Json D) → Bool
  | [], [] => true
  | a :: as, b :: bs => a.equals b && equalValues as bs
  | _, _ => false

def equalFields [Doubles D] : List (List Byte × Json D) → List (List Byte × Json D) → Bool
  | [], [] => true
  | (key, a) :: as, (key', b) :: bs => key == key' && a.equals b && equalFields as bs
  | _, _ => false

end

mutual

/-- `dump` -/
def Json.dump [Doubles D] : Json D → List Byte
  | .null => text "null"
  | .int value => signed value.toInt
  | .double value => print value
  | .bool value => if value then text "true" else text "false"
  | .string value => dumpString value
  | .array values => byte '[' :: dumpValues true values ++ [byte ']']
  | .object values => byte '\x7b' :: dumpFields true values ++ [byte '\x7d']

def dumpValues [Doubles D] (first : Bool) : List (Json D) → List Byte
  | [] => []
  | value :: values => (if first then [] else text ", ") ++ value.dump ++ dumpValues false values

def dumpFields [Doubles D] (first : Bool) : List (List Byte × Json D) → List Byte
  | [] => []
  | (key, value) :: values =>
      (if first then [] else text ", ") ++ dumpString key ++ text ": " ++ value.dump ++
        dumpFields false values

end

mutual

/-- How deep the values in it are. -/
def Json.depth : Json D → Nat
  | .array values => depthOfValues values
  | .object values => depthOfFields values
  | _ => 0

def depthOfValues : List (Json D) → Nat
  | [] => 0
  | value :: values => max (value.depth + 1) (depthOfValues values)

def depthOfFields : List (List Byte × Json D) → Nat
  | [] => 0
  | (_, value) :: values => max (value.depth + 1) (depthOfFields values)

end

mutual

/-- The keys of the objects in it rise. -/
def Json.Ordered : Json D → Prop
  | .array values => OrderedValues values
  | .object values => SortedMap.Rising values ∧ OrderedFields values
  | _ => True

def OrderedValues : List (Json D) → Prop
  | [] => True
  | value :: values => value.Ordered ∧ OrderedValues values

def OrderedFields : List (List Byte × Json D) → Prop
  | [] => True
  | (_, value) :: values => value.Ordered ∧ OrderedFields values

end

mutual

/-- The numbers in it are finite. -/
def Json.Finite [Doubles D] : Json D → Prop
  | .double value => finite value
  | .array values => FiniteValues values
  | .object values => FiniteFields values
  | _ => True

def FiniteValues [Doubles D] : List (Json D) → Prop
  | [] => True
  | value :: values => value.Finite ∧ FiniteValues values

def FiniteFields [Doubles D] : List (List Byte × Json D) → Prop
  | [] => True
  | (_, value) :: values => value.Finite ∧ FiniteFields values

end

/-- What is read of the text of a number: an `int`, when it is short enough for one. -/
def number [Doubles D] (t : List Byte) : Json D :=
  if t.all (fun ch => isDigit ch || ch == byte '-') && t.length ≤ 9 then .int (BitVec.ofInt 32 (atoi t))
  else .double (atof t)

mutual

/-- What is read of the text of a value. -/
def Json.reread [Doubles D] : Json D → Json D
  | .int value => number (signed value.toInt)
  | .double value => number (print value)
  | .array values => .array (rereadValues values)
  | .object values => .object (rereadFields values)
  | value => value

def rereadValues [Doubles D] : List (Json D) → List (Json D)
  | [] => []
  | value :: values => value.reread :: rereadValues values

def rereadFields [Doubles D] : List (List Byte × Json D) → List (List Byte × Json D)
  | [] => []
  | (key, value) :: values => (key, value.reread) :: rereadFields values

end

/-! ## Numbers that are read -/

theorem within_iff {ch : Byte} {lower upper : Char} (ascii : upper.toNat < 128) :
    within ch lower upper = true ↔ lower.toNat ≤ ch.toNat ∧ ch.toNat ≤ upper.toNat := by
  rw [within, inRange, decide_eq_true_iff, BitVec.toInt_eq_toNat_cond]
  have := ch.isLt
  split <;> omega

theorem isDigit_iff (ch : Byte) : isDigit ch = true ↔ 48 ≤ ch.toNat ∧ ch.toNat ≤ 57 :=
  within_iff (by decide)

theorem digitChar_digit : ∀ d < 10, isDigit (byte d.digitChar) = true ∧
    (byte d.digitChar).toNat - 48 = d ∧ (d ≠ 0 → within (byte d.digitChar) '1' '9' = true) := by
  decide

theorem atoiDigits_concat (t : List Byte) (ch : Byte) :
    atoiDigits (t ++ [ch]) = atoiDigits t * 10 + (ch.toNat - 48) := by
  simp [atoiDigits]

theorem atoiDigits_lt {t : List Byte} (digits : t.all isDigit = true) : atoiDigits t < 10 ^ t.length := by
  induction t using List.reverseRecOn with
  | nil => exact Nat.one_pos
  | append_singleton t ch ih =>
      rw [List.all_append, Bool.and_eq_true] at digits
      have below := ih digits.1
      have digit := (isDigit_iff ch).mp (by simpa using digits.2)
      rw [atoiDigits_concat, List.length_append, List.length_singleton, pow_succ]
      omega

/-- `%d` writes digits that `atoi` reads. -/
theorem decimal_digits (n : Nat) : IntPart (decimal n) ∧ (decimal n).all isDigit = true ∧
    atoiDigits (decimal n) = n ∧ (n ≠ 0 → ∃ first rest, decimal n = first :: rest ∧
      within first '1' '9' = true ∧ rest.all isDigit = true) := by
  induction n using Nat.strong_induction_on with
  | _ n ih =>
      have base : 1 < 10 := by decide
      rw [decimal, Nat.toDigits_eq_if base]
      split_ifs with one
      · obtain ⟨digit, value, nonzero⟩ := digitChar_digit n one
        have rest : n ≠ 0 → ∃ first rest, [n.digitChar].map byte = first :: rest ∧
            within first '1' '9' = true ∧ rest.all isDigit = true := fun some =>
          ⟨_, [], rfl, nonzero some, rfl⟩
        refine ⟨?_, by simpa using digit, by simpa [atoiDigits] using value, rest⟩
        by_cases zero : n = 0
        · rw [zero]
          exact .zero
        · exact .digits (nonzero zero) rfl
      · obtain ⟨-, digits, value, more⟩ := ih (n / 10) (by omega)
        obtain ⟨first, rest, same, nonzero, others⟩ := more (by omega)
        obtain ⟨digit, last, -⟩ := digitChar_digit (n % 10) (Nat.mod_lt _ (by decide))
        rw [decimal] at digits value same
        have whole : (Nat.toDigits 10 (n / 10) ++ [(n % 10).digitChar]).map byte =
            first :: (rest ++ [byte (n % 10).digitChar]) := by simp [same]
        have all : (rest ++ [byte (n % 10).digitChar]).all isDigit = true := by simp [others, digit]
        refine ⟨whole ▸ .digits nonzero all, ?_, ?_, fun _ => ⟨_, _, whole, nonzero, all⟩⟩
        · simp only [List.map_append, List.map_singleton, List.all_append, digits, Bool.true_and]
          simpa using digit
        · rw [List.map_append, List.map_singleton, atoiDigits_concat, value, last]
          omega

theorem isDigit_of_within {ch : Byte} (nonzero : within ch '1' '9' = true) : isDigit ch = true := by
  obtain ⟨lower, upper⟩ := (within_iff (by decide)).mp nonzero
  exact (isDigit_iff ch).mpr ⟨Nat.le_of_succ_le lower, upper⟩

theorem not_digit {ch : Byte} (far : ch.toNat < 48 ∨ 57 < ch.toNat) : isDigit ch = false := by
  rw [Bool.eq_false_iff, Ne, isDigit_iff]
  omega

theorem IntPart.digits_all {t : List Byte} (int : IntPart t) : t.all isDigit = true := by
  cases int with
  | zero => rfl
  | digits nonzero digits => rw [List.all_cons, isDigit_of_within nonzero, digits, Bool.and_self]

theorem IntPart.head {t : List Byte} (int : IntPart t) : ∃ first rest, t = first :: rest ∧
    isDigit first = true := by
  cases int with
  | zero => exact ⟨_, [], rfl, rfl⟩
  | digits nonzero _ => exact ⟨_, _, rfl, isDigit_of_within nonzero⟩

theorem IntPart.atoi {t : List Byte} (int : IntPart t) : atoi t = atoiDigits t := by
  have digits := int.digits_all
  cases t with
  | nil => cases int
  | cons ch t =>
      have other : ch ≠ byte '-' := by
        rintro rfl
        rw [List.all_cons, not_digit (by decide)] at digits
        cases digits
      rw [Json11.atoi, if_neg other]

/-- `%d` writes an integer that `atoi` reads. -/
theorem signed_integral (n : Int) : Integral (signed n) ∧ atoi (signed n) = n := by
  obtain ⟨int, digits, value, -⟩ := decimal_digits n.natAbs
  rw [signed]
  split
  · refine ⟨.neg int, ?_⟩
    rw [atoi, if_pos rfl, value]
    omega
  · refine ⟨.nonneg int, ?_⟩
    rw [int.atoi, value]
    omega

/-- In nine characters there is room for an `int` only. -/
theorem Integral.atoi_int {t : List Byte} (integral : Integral t) (short : t.length ≤ 9) :
    (BitVec.ofInt 32 (atoi t)).toInt = atoi t := by
  have small {digits : List Byte} (int : IntPart digits) (short : digits.length ≤ 9) :
      atoiDigits digits < 10 ^ 9 :=
    (atoiDigits_lt int.digits_all).trans_le (Nat.pow_le_pow_right (by decide) short)
  have range : -10 ^ 9 < atoi t ∧ atoi t < 10 ^ 9 := by
    cases integral with
    | nonneg int =>
        have := small int short
        rw [int.atoi]
        omega
    | @neg digits int =>
        have := small int (Nat.le_of_succ_le short)
        rw [atoi, if_pos rfl]
        omega
  rw [BitVec.toInt_ofInt, Int.bmod_eq_of_le] <;> omega

theorem IntPart.numeral {t : List Byte} (int : IntPart t) :
    t.all (fun ch => isDigit ch || ch == byte '-') = true := by
  have digits := int.digits_all
  rw [List.all_eq_true] at digits ⊢
  intro ch mem
  rw [digits ch mem, Bool.true_or]

theorem Integral.numeral {t : List Byte} (integral : Integral t) :
    t.all (fun ch => isDigit ch || ch == byte '-') = true := by
  cases integral with
  | nonneg int => exact int.numeral
  | neg int =>
      rw [List.all_cons, int.numeral]
      rfl

/-- Digits and a sign are those of an integer. -/
theorem Lexeme.integral_iff {t : List Byte} (lexeme : Lexeme t) :
    t.all (fun ch => isDigit ch || ch == byte '-') = true ↔ Integral t := by
  constructor
  · intro numeral
    cases lexeme with
    | mk isInt isFraction isExponent =>
        rw [List.all_append, List.all_append, Bool.and_eq_true, Bool.and_eq_true] at numeral
        obtain ⟨⟨-, inFraction⟩, inExponent⟩ := numeral
        have other {ch : Byte} {rest : List Byte} (other : (isDigit ch || ch == byte '-') = false)
            (all : (ch :: rest).all (fun ch => isDigit ch || ch == byte '-') = true) : False := by
          rw [List.all_cons, other] at all
          cases all
        cases isFraction with
        | some digits => exact (other (by decide) inFraction).elim
        | none =>
            cases isExponent with
            | none => simpa using isInt
            | some letter signs digits =>
                rcases letter with rfl | rfl
                · exact (other (by decide) inExponent).elim
                · exact (other (by decide) inExponent).elim
  · exact Integral.numeral

theorem number_short [Doubles D] {t : List Byte}
    (numeral : t.all (fun ch => isDigit ch || ch == byte '-') = true) (short : t.length ≤ 9) :
    (number t : Json D) = .int (BitVec.ofInt 32 (atoi t)) := by
  rw [number, numeral, decide_eq_true short, Bool.and_self, if_pos rfl]

theorem number_long [Doubles D] {t : List Byte} (long : ¬t.length ≤ 9) :
    (number t : Json D) = .double (atof t) := by
  rw [number, decide_eq_false long, Bool.and_false, if_neg Bool.false_ne_true]

theorem number_other [Doubles D] {t : List Byte} {c : Byte} (mem : c ∈ t)
    (other : (isDigit c || c == byte '-') = false) : (number t : Json D) = .double (atof t) := by
  have no : t.all (fun ch => isDigit ch || ch == byte '-') = false := by
    rw [List.all_eq_false]
    exact ⟨c, mem, by simp [other]⟩
  rw [number, no, Bool.false_and, if_neg Bool.false_ne_true]

/-- What is read of a number is an `int`, or a double. -/
theorem number_cases [Doubles D] {t : List Byte} (lexeme : Lexeme t) :
    (∃ n, (number t : Json D) = .int n ∧ Integral t ∧ atoi t = n.toInt) ∨
      (number t : Json D) = .double (atof t) := by
  rw [number]
  split
  · obtain ⟨numeral, short⟩ := Bool.and_eq_true_iff.mp ‹_›
    have integral := lexeme.integral_iff.mp numeral
    exact .inl ⟨_, rfl, integral, (integral.atoi_int (of_decide_eq_true short)).symm⟩
  · exact .inr rfl

theorem Integral.lexeme {t : List Byte} (integral : Integral t) : Lexeme t := by
  simpa using Lexeme.mk integral .none .none

section

variable [Doubles D] [LawfulDoubles D]

theorem int_equals_number (n : BitVec 32) :
    (Json.int n : Json D).equals (number (signed n.toInt)) = true := by
  obtain ⟨integral, value⟩ := signed_integral n.toInt
  rcases number_cases (D := D) integral.lexeme with ⟨m, same, -, read⟩ | same
  · obtain rfl : m = n := BitVec.eq_of_toInt_eq (read.symm.trans value)
    rw [same, Json.equals]
    exact LawfulDoubles.eq_self _ (LawfulDoubles.finite_ofInt _)
  · rw [same, Json.equals, LawfulDoubles.eq_comm]
    exact LawfulDoubles.atof_integral _ n integral value

theorem double_equals_number {d : D} (isFinite : finite d) :
    (Json.double d : Json D).equals (number (print d)) = true := by
  have read := LawfulDoubles.atof_print d isFinite
  rcases number_cases (D := D) (LawfulDoubles.print_lexeme d isFinite) with ⟨n, same, integral, value⟩ | same
  · rw [same, Json.equals]
    have equal : eq (atof (print d) : D) (ofInt n) = true := LawfulDoubles.atof_integral _ n integral value
    rwa [read] at equal
  · rw [same, read, Json.equals]
    exact LawfulDoubles.eq_self d isFinite

end

mutual

/-- **A value that is read again is equal to what it was.** -/
theorem Json.equals_reread [Doubles D] [LawfulDoubles D] : ∀ (v : Json D), v.Finite → v.equals v.reread = true
  | .null, _ => rfl
  | .int n, _ => int_equals_number n
  | .double _, isFinite => double_equals_number isFinite
  | .bool b, _ => beq_self_eq_true b
  | .string s, _ => beq_self_eq_true s
  | .array values, finite => equalValues_reread values finite
  | .object values, finite => equalFields_reread values finite

theorem equalValues_reread [Doubles D] [LawfulDoubles D] : ∀ (values : List (Json D)), FiniteValues values →
    equalValues values (rereadValues values) = true
  | [], _ => rfl
  | v :: values, ⟨here, later⟩ => by
      rw [rereadValues, equalValues, v.equals_reread here, equalValues_reread values later, Bool.and_self]

theorem equalFields_reread [Doubles D] [LawfulDoubles D] : ∀ (values : List (List Byte × Json D)),
    FiniteFields values → equalFields values (rereadFields values) = true
  | [], _ => rfl
  | (key, v) :: values, ⟨here, later⟩ => by
      rw [rereadFields, equalFields, v.equals_reread here, equalFields_reread values later, beq_self_eq_true,
        Bool.and_self, Bool.and_self]

end

end Drunos.Json11
