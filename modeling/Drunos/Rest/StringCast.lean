/-
# Drunos.Rest.StringCast — numbers of a request

`string_cast` and `json_cast` of `RestStringProcessing.hh`. A number is extracted from a stream of the
text into 64 bits, and an exception is thrown if a cast to the target type changes it. Whether the
extraction failed is not looked at. It has written zero where no digits follow, the largest number
where the digits make a larger one, the complement after a minus, and nothing at all where the text is
blank; what follows the digits stays in the stream.

So a text that is no numeral is refused only if the number extracted from its front is too large for
the type (`jsonCastRight_iff`).
-/
import Drunos.Types.Text
import Mathlib.Data.List.TakeWhile

namespace Drunos.Rest

open Drunos.Types

set_option autoImplicit false

/-- An unsigned target type. The largest one has 64 bits. -/
structure UintType where
  bits : Nat
  atMost : bits ≤ 64

/-- A value of the JSON library, with what `string_value` reads of it. -/
inductive Json where
  | nul
  | number
  | bool
  | string (value : Text)
  | array
  | object
  deriving DecidableEq

def Json.stringValue : Json → Text
  | .string value => value
  | _ => []

structure OverflowError where
  what : String
  deriving DecidableEq

def overflow : OverflowError := ⟨"Overflow. Check maximal supported values."⟩

/-! ## Extraction from a stream -/

/-- `std::isspace` in the classic locale. -/
def isSpace (c : Char) : Bool :=
  c == ' ' || c == '\t' || c == '\n' || c == '\r' || c.toNat == 11 || c.toNat == 12

/-- What is stored of a number: the largest one on overflow, and the complement after a minus. -/
def stored (negative : Bool) (n : Nat) : BitVec 64 :=
  if 2 ^ 64 ≤ n then BitVec.allOnes 64
  else if negative then -BitVec.ofNat 64 n
  else BitVec.ofNat 64 n

/-- A base that is set to 16 admits its prefix. -/
def dropBase : Text → Text
  | '0' :: 'x' :: rest => rest
  | '0' :: 'X' :: rest => rest
  | text => text

/-- `ss >> no_overflow`. Where only blanks are left, the variable keeps what it was. -/
def extract (hex : Bool) (uninit : BitVec 64) (text : Text) : BitVec 64 :=
  match text.dropWhile isSpace with
  | [] => uninit
  | c :: rest =>
      let unsigned := if c == '-' || c == '+' then rest else c :: rest
      if hex then stored (c == '-') (stoi 16 ((dropBase unsigned).takeWhile isXdigit))
      else stored (c == '-') (stoi 10 (unsigned.takeWhile isDigit))

def isHex : Text → Bool
  | '0' :: 'x' :: _ => true
  | _ => false

/-- The variable of the largest type is not initialized. -/
def stringCast (T : UintType) (uninit : BitVec 64) (val : Text) :
    Except OverflowError (BitVec T.bits) :=
  let noOverflow := extract (isHex val) uninit val
  let ans := noOverflow.setWidth T.bits
  if ans.setWidth 64 ≠ noOverflow then .error overflow else .ok ans

def jsonCast (T : UintType) (uninit : BitVec 64) (value : Json) :
    Except OverflowError (BitVec T.bits) :=
  stringCast T uninit value.stringValue

/-- `chooseValue`. -/
def chooseValue (T : UintType) (uninit : BitVec 64) (filter : List (Text × Json)) (field : Text)
    (alternative : BitVec T.bits) : Except OverflowError (BitVec T.bits) :=
  match filter.lookup field with
  | some value => jsonCast T uninit value
  | none => .ok alternative

/-- `HANDLE_UINT`: the value of the field that is added. A missing one is passed over, an overflow is
thrown on. -/
def handleUint (T : UintType) (uninit : BitVec 64) (fields : List (Text × Json)) (field : Text) :
    Except OverflowError (Option (BitVec T.bits)) :=
  match fields.lookup field with
  | some value => (jsonCast T uninit value).map some
  | none => .ok none

/-! ## Numerals -/

/-- A decimal numeral, or a hexadecimal one with its prefix. -/
inductive Numeral : Text → Nat → Prop
  | decimal {digits : Text} (some : digits ≠ []) (each : ∀ c ∈ digits, isDigit c = true) :
      Numeral digits (stoi 10 digits)
  | hexadecimal {digits : Text} (some : digits ≠ []) (each : ∀ c ∈ digits, isXdigit c = true) :
      Numeral ('0' :: 'x' :: digits) (stoi 16 digits)

/-- The cast gives the number of a numeral if it fits into the type, and throws on any other text. -/
def JsonCastRight (T : UintType) (value : Json) : Prop :=
  ∀ uninit, (∀ n, jsonCast T uninit value = .ok n ↔ Numeral value.stringValue n.toNat) ∧
    ((∀ n : BitVec T.bits, ¬Numeral value.stringValue n.toNat) →
      jsonCast T uninit value = .error overflow)

inductive Sign : Text → Bool → Prop
  | absent : Sign [] false
  | plus : Sign ['+'] false
  | minus : Sign ['-'] true

/-- The text begins with this number: behind blanks and a sign, and with other characters behind it.
A text with the hexadecimal prefix is no decimal zero. -/
inductive Begins : Text → Bool → Nat → Prop
  | decimal {blanks sign digits rest : Text} {negative : Bool} (blank : ∀ c ∈ blanks, isSpace c = true)
      (signed : Sign sign negative) (some : digits ≠ []) (each : ∀ c ∈ digits, isDigit c = true)
      (ends : ∀ c ∈ rest.head?, isDigit c = false)
      (base : isHex (blanks ++ sign ++ digits ++ rest) = false) :
      Begins (blanks ++ sign ++ digits ++ rest) negative (stoi 10 digits)
  | hexadecimal {digits rest : Text} (some : digits ≠ []) (each : ∀ c ∈ digits, isXdigit c = true)
      (ends : ∀ c ∈ rest.head?, isXdigit c = false) :
      Begins ('0' :: 'x' :: (digits ++ rest)) false (stoi 16 digits)

/-- The number at the front is too large for the type: it, or its complement after a minus. -/
def TooLarge (T : UintType) (s : Text) : Prop :=
  T.bits < 64 ∧ ∃ negative n, Begins s negative n ∧
    if negative then 0 < n ∧ (n ≤ 2 ^ 64 - 2 ^ T.bits ∨ 2 ^ 64 ≤ n) else 2 ^ T.bits ≤ n

/-! ## What is extracted -/

theorem takeWhile_run {p : Char → Bool} {front rest : Text} (each : ∀ c ∈ front, p c = true)
    (ends : ∀ c ∈ rest.head?, p c = false) : (front ++ rest).takeWhile p = front := by
  rw [List.takeWhile_append_of_pos each]
  cases rest with
  | nil => simp
  | cons c rest => simp [ends c rfl]

theorem dropWhile_run {p : Char → Bool} {front rest : Text} (each : ∀ c ∈ front, p c = true)
    (ends : ∀ c ∈ rest.head?, p c = false) : (front ++ rest).dropWhile p = rest := by
  rw [List.dropWhile_append_of_pos each]
  cases rest with
  | nil => rfl
  | cons c rest => simp [ends c rfl]

theorem head_dropWhile (p : Char → Bool) (s : Text) : ∀ c ∈ (s.dropWhile p).head?, p c = false := by
  intro c mem
  have ends := List.head?_dropWhile_not p s
  rw [Option.mem_def.mp mem] at ends
  simpa using ends

theorem isDigit_class {c : Char} (digit : isDigit c = true) :
    isSpace c = false ∧ c ≠ '-' ∧ c ≠ '+' ∧ c ≠ 'x' := by
  have range := Char.isDigit_iff_toNat.mp digit
  change 48 ≤ c.toNat ∧ c.toNat ≤ 57 at range
  refine ⟨?_, ?_, ?_, ?_⟩
  · by_contra space
    simp only [isSpace, Bool.not_eq_false, Bool.or_eq_true, beq_iff_eq] at space
    rcases space with ((((rfl | rfl) | rfl) | rfl) | vt) | ff
    · exact absurd digit (by decide)
    · exact absurd digit (by decide)
    · exact absurd digit (by decide)
    · exact absurd digit (by decide)
    · omega
    · omega
  · rintro rfl
    exact absurd digit (by decide)
  · rintro rfl
    exact absurd digit (by decide)
  · rintro rfl
    exact absurd digit (by decide)

/-- Blanks are skipped. -/
theorem extract_skip (hex : Bool) (uninit : BitVec 64) {blanks : Text} {c : Char} (rest : Text)
    (blank : ∀ b ∈ blanks, isSpace b = true) (visible : isSpace c = false) :
    extract hex uninit (blanks ++ c :: rest) = extract hex uninit (c :: rest) := by
  have skipped : (blanks ++ c :: rest).dropWhile isSpace = c :: rest :=
    dropWhile_run blank (by simpa using visible)
  have same : (c :: rest).dropWhile isSpace = c :: rest := by simp [visible]
  rw [extract, extract, skipped, same]

theorem extract_digits (uninit : BitVec 64) {sign digits rest : Text} {negative : Bool}
    (signed : Sign sign negative) (some : digits ≠ []) (each : ∀ c ∈ digits, isDigit c = true)
    (ends : ∀ c ∈ rest.head?, isDigit c = false) :
    extract false uninit (sign ++ (digits ++ rest)) = stored negative (stoi 10 digits) := by
  have taken := takeWhile_run each ends
  cases signed with
  | absent =>
      obtain ⟨d, ds, rfl⟩ := List.exists_cons_of_ne_nil some
      obtain ⟨visible, noMinus, noPlus, -⟩ := isDigit_class (each d (by simp))
      rw [List.cons_append] at taken
      simp [extract, visible, noPlus, taken, beq_eq_false_iff_ne.mpr noMinus]
  | plus => simp [extract, isSpace, taken]
  | minus => simp [extract, isSpace, taken]

theorem extract_begins {s : Text} {negative : Bool} {n : Nat} (begins : Begins s negative n)
    (uninit : BitVec 64) : extract (isHex s) uninit s = stored negative n := by
  cases begins with
  | decimal blank signed some each ends base =>
      rw [base, ← extract_digits uninit signed some each ends]
      rename_i blanks sign digits rest
      obtain ⟨c, more, next, visible⟩ : ∃ c more, sign ++ (digits ++ rest) = c :: more ∧
          isSpace c = false := by
        obtain ⟨d, ds, rfl⟩ := List.exists_cons_of_ne_nil some
        cases signed with
        | absent => exact ⟨d, _, rfl, (isDigit_class (each d (by simp))).1⟩
        | plus => exact ⟨'+', _, rfl, by decide⟩
        | minus => exact ⟨'-', _, rfl, by decide⟩
      rw [List.append_assoc, List.append_assoc, next]
      exact extract_skip false uninit more blank visible
  | hexadecimal some each ends =>
      have taken := takeWhile_run each ends
      simp [isHex, extract, isSpace, dropBase, taken]

/-- Where no number is at the front, nothing is stored but zero. -/
theorem begins_of_extract {s : Text} (stores : extract (isHex s) 0 s ≠ 0) :
    ∃ negative n, Begins s negative n := by
  have taken {p : Char → Bool} (rest : Text) : ∀ c ∈ rest.takeWhile p, p c = true :=
    fun c mem => List.mem_takeWhile_imp mem
  cases base : isHex s with
  | true =>
      obtain ⟨rest, rfl⟩ : ∃ rest, s = '0' :: 'x' :: rest := by
        unfold isHex at base
        split at base
        · exact ⟨_, rfl⟩
        · cases base
      by_cases none : rest.takeWhile isXdigit = []
      · refine absurd ?_ stores
        simp [isHex, extract, isSpace, dropBase, none, stoi, positional, stored]
      · rw [← rest.takeWhile_append_dropWhile (p := isXdigit)]
        exact ⟨_, _, .hexadecimal none (taken rest) (head_dropWhile isXdigit rest)⟩
  | false =>
      rw [base] at stores
      have blanks := taken (p := isSpace) s
      have whole := s.takeWhile_append_dropWhile (p := isSpace)
      cases visible : s.dropWhile isSpace with
      | nil => exact absurd (by simp [extract, visible]) stores
      | cons c rest =>
          -- the digits are those of the rest behind a sign, and of all of it otherwise
          have front {sign tail : Text} {negative : Bool} (signed : Sign sign negative)
              (split : c :: rest = sign ++ tail) (some : tail.takeWhile isDigit ≠ []) :
              ∃ negative n, Begins s negative n := by
            have text : s = s.takeWhile isSpace ++ sign ++ tail.takeWhile isDigit ++
                tail.dropWhile isDigit := by
              rw [List.append_assoc, List.append_assoc, List.takeWhile_append_dropWhile, ← split,
                ← visible, whole]
            rw [text] at base ⊢
            exact ⟨_, _, .decimal blanks signed some (taken tail) (head_dropWhile isDigit tail) base⟩
          by_cases minus : c = '-'
          · refine front .minus (congrArg (· :: rest) minus) fun none => stores ?_
            simp [extract, visible, minus, none, stoi, positional, stored]
          · by_cases plus : c = '+'
            · refine front .plus (congrArg (· :: rest) plus) fun none => stores ?_
              simp [extract, visible, plus, none, stoi, positional, stored]
            · refine front .absent rfl fun none => stores ?_
              simp [extract, visible, plus, minus, none, stoi, positional, stored]

/-! ## The exact condition -/

theorem stringCast_eq (T : UintType) (uninit : BitVec 64) (val : Text) :
    stringCast T uninit val =
      if (extract (isHex val) uninit val).toNat < 2 ^ T.bits then
        .ok ((extract (isHex val) uninit val).setWidth T.bits)
      else .error overflow := by
  generalize extracted : extract (isHex val) uninit val = e
  have unchanged : (e.setWidth T.bits).setWidth 64 = e ↔ e.toNat < 2 ^ T.bits := by
    have size : 2 ^ T.bits ≤ 2 ^ 64 := Nat.pow_le_pow_right (by decide) T.atMost
    have part : e.toNat % 2 ^ T.bits < 2 ^ T.bits := Nat.mod_lt _ (Nat.two_pow_pos _)
    rw [← BitVec.toNat_inj, BitVec.toNat_setWidth, BitVec.toNat_setWidth, Nat.mod_eq_of_lt (by omega)]
    constructor
    · intro same
      omega
    · exact Nat.mod_eq_of_lt
  simp only [stringCast, extracted]
  by_cases fits : e.toNat < 2 ^ T.bits
  · rw [if_neg (not_not.mpr (unchanged.mpr fits)), if_pos fits]
  · rw [if_pos (mt unchanged.mp fits), if_neg fits]

theorem stored_toNat (negative : Bool) (n : Nat) :
    (stored negative n).toNat =
      if 2 ^ 64 ≤ n then 2 ^ 64 - 1 else if negative then (2 ^ 64 - n) % 2 ^ 64 else n := by
  rw [stored]
  by_cases large : 2 ^ 64 ≤ n
  · rw [if_pos large, if_pos large, BitVec.toNat_allOnes]
  · have small : n % 2 ^ 64 = n := Nat.mod_eq_of_lt (by omega)
    rw [if_neg large, if_neg large]
    cases negative with
    | false => rw [if_neg Bool.false_ne_true, if_neg Bool.false_ne_true, BitVec.toNat_ofNat, small]
    | true => rw [if_pos rfl, if_pos rfl, BitVec.toNat_neg, BitVec.toNat_ofNat, small]

/-- What is stored does not fit into the type. -/
theorem stored_large_iff (T : UintType) (negative : Bool) (n : Nat) :
    2 ^ T.bits ≤ (stored negative n).toNat ↔
      T.bits < 64 ∧
        if negative then 0 < n ∧ (n ≤ 2 ^ 64 - 2 ^ T.bits ∨ 2 ^ 64 ≤ n) else 2 ^ T.bits ≤ n := by
  by_cases narrow : T.bits < 64
  · have below : 2 ^ T.bits < 2 ^ 64 := Nat.pow_lt_pow_right (by decide) narrow
    have positive := Nat.two_pow_pos T.bits
    generalize 2 ^ T.bits = size at below positive ⊢
    rw [stored_toNat]
    cases negative with
    | false =>
        simp only [Bool.false_eq_true, if_false]
        split_ifs <;> omega
    | true =>
        simp only [if_true]
        split_ifs <;> omega
  · have whole : T.bits = 64 := by
      have atMost := T.atMost
      omega
    have bound := (stored negative n).isLt
    rw [whole]
    exact iff_of_false (by omega) fun large => absurd large.1 (by decide)

theorem Numeral.begins {s : Text} {n : Nat} (numeral : Numeral s n) : Begins s false n := by
  cases numeral with
  | decimal some each =>
      have base : isHex s = false := by
        unfold isHex
        split
        · exact absurd rfl (isDigit_class (each 'x' (by simp))).2.2.2
        · rfl
      have begins : Begins ([] ++ [] ++ s ++ []) false (stoi 10 s) :=
        .decimal (by simp) .absent some each (by simp) (by simpa using base)
      simpa using begins
  | @hexadecimal digits some each =>
      have begins : Begins ('0' :: 'x' :: (digits ++ [])) false (stoi 16 digits) :=
        .hexadecimal some each (by simp)
      simpa using begins

theorem extract_numeral {s : Text} {n : Nat} (numeral : Numeral s n) (fits : n < 2 ^ 64)
    (uninit : BitVec 64) : (extract (isHex s) uninit s).toNat = n := by
  rw [extract_begins numeral.begins, stored_toNat, if_neg (by omega), if_neg (by decide)]

/-- What fits into a type fits into the largest one. -/
theorem UintType.fits (T : UintType) (n : BitVec T.bits) : n.toNat < 2 ^ 64 :=
  Nat.lt_of_lt_of_le n.isLt (Nat.pow_le_pow_right (by decide) T.atMost)

/-- **The cast is right about a value exactly if it is a numeral of at most 64 bits, or begins with a
number that is too large for the type.** -/
theorem jsonCastRight_iff (T : UintType) (value : Json) :
    JsonCastRight T value ↔
      (∃ n < 2 ^ 64, Numeral value.stringValue n) ∨ TooLarge T value.stringValue := by
  generalize text : value.stringValue = s
  simp only [JsonCastRight, jsonCast, text, stringCast_eq]
  constructor
  · intro right
    obtain ⟨exact, -⟩ := right 0
    by_cases fits : (extract (isHex s) 0 s).toNat < 2 ^ T.bits
    · rw [if_pos fits] at exact
      exact .inl ⟨_, T.fits _, (exact _).mp rfl⟩
    · right
      have stores : extract (isHex s) 0 s ≠ 0 := by
        intro none
        rw [none] at fits
        exact fits (Nat.two_pow_pos _)
      obtain ⟨negative, n, begins⟩ := begins_of_extract stores
      rw [extract_begins begins, Nat.not_lt, stored_large_iff] at fits
      exact ⟨fits.1, negative, n, begins, fits.2⟩
  · intro condition uninit
    have extracted {n : BitVec T.bits} (numeral : Numeral s n.toNat) :
        (extract (isHex s) uninit s).toNat = n.toNat :=
      extract_numeral numeral (T.fits n) uninit
    by_cases fits : (extract (isHex s) uninit s).toNat < 2 ^ T.bits
    · -- the text is a numeral, and of the number that is extracted
      obtain ⟨n, small, numeral⟩ : ∃ n < 2 ^ 64, Numeral s n := by
        refine condition.resolve_right fun ⟨narrow, negative, n, begins, large⟩ => ?_
        rw [extract_begins begins] at fits
        exact absurd ((stored_large_iff T negative n).mpr ⟨narrow, large⟩) (by omega)
      have value := extract_numeral numeral small uninit
      have cast : ((extract (isHex s) uninit s).setWidth T.bits).toNat = n := by
        rw [BitVec.toNat_setWidth, Nat.mod_eq_of_lt fits, value]
      rw [if_pos fits]
      refine ⟨fun k => ⟨fun ok => ?_, fun other => ?_⟩, fun none => (none _ (cast ▸ numeral)).elim⟩
      · obtain rfl := Except.ok.inj ok
        rw [cast]
        exact numeral
      · refine congrArg Except.ok (BitVec.eq_of_toNat_eq ?_)
        rw [cast, ← value, extracted other]
    · rw [if_neg fits]
      refine ⟨fun k => ⟨nofun, fun numeral => ?_⟩, fun _ => rfl⟩
      rw [extracted numeral] at fits
      exact (fits k.isLt).elim

/-- The text "12abc" for an octet. -/
theorem not_jsonCastRight : ¬JsonCastRight ⟨8, by decide⟩ (.string "12abc".toList) := by
  intro right
  obtain ⟨n, numeral⟩ : ∃ n, Numeral "12abc".toList n := ⟨_, ((right 0).1 12).mp (by decide)⟩
  generalize text : "12abc".toList = s at numeral
  cases numeral with
  | decimal some each =>
      subst text
      exact absurd (each 'a' (by decide)) (by decide)
  | hexadecimal some each => cases text

/-! ## The fields of a request -/

/-- What the cast gives for a value it is right about. -/
theorem JsonCastRight.outcome {T : UintType} {value : Json} (right : JsonCastRight T value)
    (uninit : BitVec 64) :
    (∃ n, jsonCast T uninit value = .ok n ∧ Numeral value.stringValue n.toNat) ∨
      jsonCast T uninit value = .error overflow := by
  by_cases some : ∃ n : BitVec T.bits, Numeral value.stringValue n.toNat
  · obtain ⟨n, numeral⟩ := some
    exact .inl ⟨n, ((right uninit).1 n).mpr numeral, numeral⟩
  · exact .inr ((right uninit).2 (not_exists.mp some))

/-- A field of a match is that of the request, or the request is refused. -/
theorem handleUint_right {T : UintType} {fields : List (Text × Json)} {field : Text} {value : Json}
    (found : fields.lookup field = some value) (right : JsonCastRight T value) (uninit : BitVec 64) :
    (∃ n, handleUint T uninit fields field = .ok (some n) ∧ Numeral value.stringValue n.toNat) ∨
      handleUint T uninit fields field = .error overflow := by
  rcases right.outcome uninit with ⟨n, ok, numeral⟩ | thrown
  · exact .inl ⟨n, by simp [handleUint, found, ok, Except.map], numeral⟩
  · exact .inr (by simp [handleUint, found, thrown, Except.map])

/-- So is any other field, and the alternative is chosen for none that is there. -/
theorem chooseValue_right {T : UintType} {filter : List (Text × Json)} {field : Text} {value : Json}
    (found : filter.lookup field = some value) (right : JsonCastRight T value) (uninit : BitVec 64)
    (alternative : BitVec T.bits) :
    (∃ n, chooseValue T uninit filter field alternative = .ok n ∧
        Numeral value.stringValue n.toNat) ∨
      chooseValue T uninit filter field alternative = .error overflow := by
  rcases right.outcome uninit with ⟨n, ok, numeral⟩ | thrown
  · exact .inl ⟨n, by simp [chooseValue, found, ok], numeral⟩
  · exact .inr (by simp [chooseValue, found, thrown])

end Drunos.Rest
