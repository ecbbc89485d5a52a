/-
# Drunos.Json11.Numbers — the numbers that are parsed

`parse_number` takes a number in parts, the sign, the digits before the point, those behind
it and the exponent. It reads every number that ends where the text goes on
(`parseNumber_eq`), and what it reads is a number (`parseNumber_outcome`).
-/
import Drunos.Json11.Parser

namespace Drunos.Json11.JsonParser

set_option autoImplicit false

variable {start p : JsonParser} {t rest : List Byte}

/-- A number ends here. -/
def Ends (rest : List Byte) : Prop :=
  ∀ ch ∈ rest.head?, isDigit ch = false ∧ ch ≠ byte '.' ∧ ch ≠ byte 'e' ∧ ch ≠ byte 'E'

theorem Ends.current (ends : Ends rest) (reads : p.rest = rest) : isDigit p.current = false ∧
    p.current ≠ byte '.' ∧ p.current ≠ byte 'e' ∧ p.current ≠ byte 'E' := by
  cases rest with
  | nil =>
      rw [JsonParser.current, reads]
      decide
  | cons ch rest =>
      rw [current_cons reads]
      exact ends ch rfl

theorem lexeme_eq (reads : start.rest = t ++ rest) : lexeme start (start.skip t.length) = t := by
  rw [lexeme, skip_i, Nat.add_sub_cancel_left, reads, List.take_left]

theorem isDigit_current {digits : List Byte} (is : IsDigits digits) (reads : p.rest = digits ++ rest) :
    isDigit p.current = true := by
  obtain ⟨some, all⟩ := is
  cases digits with
  | nil => exact absurd rfl some
  | cons ch digits =>
      rw [current_cons reads]
      exact (Bool.and_eq_true_iff.mp all).1

/-- A digit ends a sign. -/
theorem digit_not_sign {ch : Byte} (digit : isDigit ch = true) : ¬(ch = byte '+' ∨ ch = byte '-') := by
  rintro (rfl | rfl)
  · exact absurd digit (by decide)
  · exact absurd digit (by decide)

/-- Where a fraction or an exponent starts no digit is. -/
theorem letter_other {e : Byte} (letter : e = byte 'e' ∨ e = byte 'E') :
    (isDigit e || e == byte '-') = false ∧ isDigit e = false ∧ e ≠ byte '.' := by
  rcases letter with rfl | rfl <;> decide

theorem current_rest (visible : p.current ≠ 0) : ∃ rest, p.rest = p.current :: rest := by
  cases reads : p.rest with
  | nil =>
      rw [current, reads] at visible
      exact absurd rfl visible
  | cons ch rest => exact ⟨rest, by rw [current_cons reads]⟩

/-- Digits are read from where one is. -/
theorem skip_digits_cases (digit : isDigit p.current = true) : ∃ digits rest, IsDigits digits ∧
    p.rest = digits ++ rest ∧ p.skipWhile isDigit = p.skip digits.length := by
  obtain ⟨digits, rest, reads, all, stops, moved⟩ := skipWhile_cases isDigit p
  refine ⟨digits, rest, ⟨?_, all⟩, reads, moved⟩
  rintro rfl
  cases rest with
  | nil =>
      rw [current, reads] at digit
      exact absurd digit (by decide)
  | cons ch rest =>
      rw [current_cons reads, stops ch rfl] at digit
      cases digit

section

variable {D : Type} [Doubles D]

/-! ## Numbers that are there -/

theorem parseExponent_eq {front exponent : List Byte} (isExponent : Exponent exponent)
    (reads : start.rest = front ++ (exponent ++ rest)) (ends : Ends rest) :
    (parseExponent start (start.skip front.length) : Json D × JsonParser) =
      (.double (Doubles.atof (front ++ exponent)), start.skip (front ++ exponent).length) := by
  have behind := rest_skip reads
  cases isExponent with
  | none =>
      have current := ends.current behind
      rw [parseExponent, if_neg (not_or.mpr current.2.2), lexeme_eq reads, List.append_nil]
  | @some e sign digits letter signs isDigits =>
      have whole : start.rest = (front ++ (e :: sign ++ digits)) ++ rest := by simpa using reads
      have first : (start.skip front.length).current = e := current_cons behind
      have second : ((start.skip front.length).skip 1).rest = sign ++ (digits ++ rest) :=
        rest_skip_one (by simpa using behind)
      have signed : (if ((start.skip front.length).skip 1).current = byte '+' ∨
            ((start.skip front.length).skip 1).current = byte '-' then
          ((start.skip front.length).skip 1).skip 1 else (start.skip front.length).skip 1) =
          start.skip (front ++ (e :: sign)).length := by
        rcases signs with rfl | rfl | rfl
        · have digit := isDigit_current (p := (start.skip front.length).skip 1) isDigits second
          rw [if_neg (digit_not_sign digit)]
          simp
        · rw [if_pos (.inl (current_cons second))]
          simp
        · rw [if_pos (.inr (current_cons second))]
          simp
      have third : (start.skip (front ++ (e :: sign)).length).rest = digits ++ rest :=
        rest_skip (by simpa using reads)
      have last : (start.skip (front ++ (e :: sign)).length).skipWhile isDigit =
          start.skip (front ++ (e :: sign ++ digits)).length := by
        rw [skipWhile_eq third isDigits.2 fun ch mem => (ends ch mem).1, skip_length, List.append_assoc]
      rw [parseExponent, if_pos (first ▸ letter)]
      simp only [signed, if_pos (isDigit_current isDigits third), last, lexeme_eq whole]

theorem parseFraction_eq {int fraction exponent : List Byte} (isInt : Integral int)
    (isFraction : Fraction fraction) (isExponent : Exponent exponent)
    (reads : start.rest = int ++ (fraction ++ (exponent ++ rest))) (ends : Ends rest) :
    (parseFraction start (start.skip int.length) : Json D × JsonParser) =
      (number (int ++ fraction ++ exponent), start.skip (int ++ fraction ++ exponent).length) := by
  have behind := rest_skip reads
  have length : (start.skip int.length).i - start.i = int.length := Nat.add_sub_cancel_left ..
  cases isFraction with
  | none =>
      rw [parseFraction, length, List.append_nil]
      have current : (start.skip int.length).current ≠ byte '.' := by
        cases isExponent with
        | none => exact (ends.current behind).2.1
        | some letter => exact current_cons behind ▸ (letter_other letter).2.2
      have exponential := parseExponent_eq (D := D) isExponent reads ends
      split
      · rename_i plain
        cases isExponent with
        | none => rw [lexeme_eq reads, List.append_nil, number_short isInt.numeral plain.2]
        | some letter =>
            rw [current_cons behind] at plain
            exact absurd letter (not_or.mpr plain.1.2)
      · rename_i notPlain
        rw [exponential]
        cases isExponent with
        | none =>
            rw [List.append_nil, number_long fun short => notPlain ⟨(ends.current behind).2, short⟩]
        | @some e _ _ letter => rw [number_other (c := e) (by simp) (letter_other letter).1]
  | @some digits isDigits =>
      have point : (start.skip int.length).current = byte '.' := current_cons behind
      have second : ((start.skip int.length).skip 1).rest = digits ++ (exponent ++ rest) :=
        rest_skip_one (by simpa using behind)
      have stops : ∀ ch ∈ (exponent ++ rest).head?, isDigit ch = false := by
        intro ch mem
        cases isExponent with
        | none => exact (ends ch mem).1
        | some letter =>
            obtain rfl := Option.some.inj mem
            exact (letter_other letter).2.1
      have third : ((start.skip int.length).skip 1).skipWhile isDigit =
          start.skip (int ++ byte '.' :: digits).length := by
        rw [skipWhile_eq second isDigits.2 stops]
        simp only [skip_skip, List.length_append, List.length_cons]
        congr 1
        omega
      rw [parseFraction, if_neg fun plain => plain.1.1 point, if_pos point]
      simp only [if_pos (isDigit_current isDigits second), third]
      rw [parseExponent_eq isExponent (by simpa using reads) ends,
        number_other (c := byte '.') (by simp) (by decide)]

theorem parseInteger_eq {sign digits more : List Byte} (int : IntPart digits)
    (reads : start.rest = sign ++ (digits ++ more)) (stops : ∀ ch ∈ more.head?, isDigit ch = false) :
    (parseInteger start (start.skip sign.length) : Json D × JsonParser) =
      parseFraction start (start.skip (sign ++ digits).length) := by
  have behind := rest_skip reads
  cases int with
  | zero =>
      have second : ((start.skip sign.length).skip 1).rest = more := rest_skip_one behind
      have other : isDigit ((start.skip sign.length).skip 1).current = false := by
        cases more with
        | nil =>
            rw [JsonParser.current, second]
            decide
        | cons ch more =>
            rw [current_cons second]
            exact stops ch rfl
      rw [parseInteger, if_pos (current_cons behind)]
      simp only [other, Bool.false_eq_true, if_false]
      simp
  | @digits first rest nonzero digits =>
      have second : ((start.skip sign.length).skip 1).rest = rest ++ more :=
        rest_skip_one (by simpa using behind)
      have current : (start.skip sign.length).current = first := current_cons behind
      have notZero : first ≠ byte '0' := by
        rintro rfl
        exact absurd nonzero (by decide)
      rw [parseInteger, current, if_neg notZero, if_pos nonzero, skipWhile_eq second digits stops]
      simp only [skip_skip, List.length_append, List.length_cons]
      congr 2
      omega

/-- **A number is read.** -/
theorem parseNumber_eq (lexeme : Lexeme t) (reads : start.rest = t ++ rest) (ends : Ends rest) :
    (parseNumber start : Json D × JsonParser) = (number t, start.skip t.length) := by
  cases lexeme with
  | @mk int fraction exponent isInt isFraction isExponent =>
      have fractions := parseFraction_eq (D := D) isInt isFraction isExponent (by simpa using reads) ends
      have stops : ∀ ch ∈ (fraction ++ (exponent ++ rest)).head?, isDigit ch = false := by
        intro ch mem
        cases isFraction with
        | some => exact Option.some.inj mem ▸ by decide
        | none =>
            cases isExponent with
            | none => exact (ends ch mem).1
            | some letter => exact Option.some.inj mem ▸ (letter_other letter).2.1
      rw [parseNumber, ← fractions]
      cases isInt with
      | nonneg isInt =>
          have other : start.current ≠ byte '-' := by
            obtain ⟨first, rest', same, digit⟩ := isInt.head
            have reads : start.rest = first :: (rest' ++ (fraction ++ (exponent ++ rest))) := by
              simpa [same] using reads
            rw [current_cons reads]
            rintro rfl
            exact absurd digit (by decide)
          rw [if_neg other]
          have reads : start.rest = [] ++ (int ++ (fraction ++ (exponent ++ rest))) := by
            simpa using reads
          exact parseInteger_eq isInt reads stops
      | @neg digits int =>
          have reads : start.rest = [byte '-'] ++ (digits ++ (fraction ++ (exponent ++ rest))) := by
            simpa using reads
          rw [if_pos (current_cons reads)]
          exact parseInteger_eq int reads stops

/-! ## What is read -/

/-- It is a number. -/
def IsNumber (t : List Byte) (v : Json D) : Prop := Lexeme t ∧ v = number t

/-- What is read of the exponent. -/
theorem parseExponent_cases {front : List Byte} (reads : start.rest = front ++ p.rest)
    (place : p = start.skip front.length) : Outcome p
      (fun t (v : Json D) => Exponent t ∧ v = .double (Doubles.atof (front ++ t)) ∧
        (t = [] → p.current ≠ byte 'e' ∧ p.current ≠ byte 'E')) (parseExponent start p) := by
  rw [parseExponent]
  split
  · rename_i letter
    obtain ⟨second, after⟩ : ∃ rest, p.rest = p.current :: rest :=
      current_rest (by rcases letter with e | e <;> rw [e] <;> decide)
    obtain ⟨sign, third, signs, behind, moved⟩ : ∃ sign rest,
        (sign = [] ∨ sign = [byte '+'] ∨ sign = [byte '-']) ∧ (p.skip 1).rest = sign ++ rest ∧
          (if (p.skip 1).current = byte '+' ∨ (p.skip 1).current = byte '-' then (p.skip 1).skip 1
            else p.skip 1) = (p.skip 1).skip sign.length := by
      split
      · rename_i isSign
        obtain ⟨rest, behind⟩ : ∃ rest, (p.skip 1).rest = (p.skip 1).current :: rest :=
          current_rest (by rcases isSign with e | e <;> rw [e] <;> decide)
        refine ⟨[(p.skip 1).current], rest, ?_, behind, rfl⟩
        rcases isSign with e | e <;> rw [e] <;> simp
      · exact ⟨[], _, .inl rfl, rfl, rfl⟩
    simp only [moved]
    split
    · obtain ⟨digits, rest, isDigits, numerals, read⟩ := skip_digits_cases ‹_›
      have first : (p.skip 1).rest = second := rest_skip_one after
      have last : ((p.skip 1).skip sign.length).rest = third := rest_skip behind
      have exponent : p.rest = (p.current :: sign ++ digits) ++ rest := by
        rw [after, ← first, behind, ← last, numerals]
        simp
      have there : ((p.skip 1).skip sign.length).skip digits.length =
          p.skip (p.current :: sign ++ digits).length := by
        simp only [skip_skip, List.length_append, List.length_cons]
        congr 1
        omega
      have whole : lexeme start (p.skip (p.current :: sign ++ digits).length) =
          front ++ (p.current :: sign ++ digits) := by
        have text : start.rest = (front ++ (p.current :: sign ++ digits)) ++ rest := by
          rw [reads, List.append_assoc, ← exponent]
        have place : p.skip (p.current :: sign ++ digits).length =
            start.skip (front ++ (p.current :: sign ++ digits)).length := by
          rw [← skip_length front, ← place]
        rw [place, lexeme_eq text]
      rw [read, there, whole]
      exact .inr ⟨_, rest, ⟨.some letter signs isDigits, rfl, fun none => by simp at none⟩, exponent, rfl⟩
    · exact .fails _ _
  · refine .inr ⟨[], p.rest, ⟨.none, ?_, fun _ => not_or.mp ‹_›⟩, rfl, rfl⟩
    have read : lexeme start p = front := place ▸ lexeme_eq (place ▸ reads)
    rw [read, List.append_nil]

/-- What is read from the decimal part on. -/
theorem parseFraction_outcome {int : List Byte} (isInt : Integral int) (reads : start.rest = int ++ p.rest)
    (place : p = start.skip int.length) :
    Outcome start IsNumber (parseFraction start p : Json D × JsonParser) := by
  have length : p.i - start.i = int.length := by simp [place]
  rw [parseFraction, length]
  split
  · obtain ⟨-, short⟩ := ‹_ ∧ _›
    refine .inr ⟨int, p.rest, ⟨isInt.lexeme, ?_⟩, reads, place⟩
    rw [place, lexeme_eq (place ▸ reads), number_short isInt.numeral short]
  · rename_i notPlain
    split
    · rename_i point
      obtain ⟨second, after⟩ : ∃ rest, p.rest = p.current :: rest :=
        current_rest (by rw [point]; decide)
      rw [point] at after
      dsimp only
      split
      · obtain ⟨digits, rest, isDigits, numerals, moved⟩ := skip_digits_cases ‹_›
        have first : (p.skip 1).rest = second := rest_skip_one after
        have last : ((p.skip 1).skip digits.length).rest = rest := rest_skip numerals
        have whole : start.rest = (int ++ byte '.' :: digits) ++ ((p.skip 1).skip digits.length).rest := by
          rw [reads, after, ← first, numerals, last]
          simp
        have there : (p.skip 1).skip digits.length = start.skip (int ++ byte '.' :: digits).length := by
          rw [place]
          simp only [skip_skip, List.length_append, List.length_cons]
          congr 1
          omega
        have exponents := parseExponent_cases (D := D) whole there
        rw [moved]
        rw [there] at exponents whole ⊢
        refine exponents.behind whole fun t read => ?_
        exact ⟨.mk isInt (.some isDigits) read.1,
          by rw [read.2.1, number_other (c := byte '.') (by simp) (by decide)]⟩
      · exact .fails _ _
    · rename_i notPoint
      have exponents := parseExponent_cases (D := D) reads place
      subst place
      refine exponents.behind reads fun t read => ?_
      obtain ⟨is, value, plain⟩ := read
      refine ⟨by simpa using Lexeme.mk isInt .none is, ?_⟩
      rw [value]
      cases is with
      | none =>
          have long : ¬int.length ≤ 9 := fun short => notPlain ⟨⟨notPoint, plain rfl⟩, short⟩
          rw [number_long (by simpa using long)]
      | @some e _ _ letter => rw [number_other (c := e) (by simp) (letter_other letter).1]

/-- What is read from the integer part on. -/
theorem parseInteger_outcome {sign : List Byte} (isSign : sign = [] ∨ sign = [byte '-'])
    (reads : start.rest = sign ++ p.rest) (place : p = start.skip sign.length) :
    Outcome start IsNumber (parseInteger start p : Json D × JsonParser) := by
  have integral {digits : List Byte} (int : IntPart digits) : Integral (sign ++ digits) := by
    rcases isSign with rfl | rfl
    · exact .nonneg int
    · exact .neg int
  have further {digits rest : List Byte} (int : IntPart digits) (behind : p.rest = digits ++ rest) :
      Outcome start IsNumber (parseFraction start (p.skip digits.length) : Json D × JsonParser) := by
    refine parseFraction_outcome (integral int) ?_ ?_
    · rw [rest_skip behind, reads, behind, List.append_assoc]
    · rw [place, skip_length]
  rw [parseInteger]
  split
  · rename_i zero
    obtain ⟨rest, behind⟩ : ∃ rest, p.rest = p.current :: rest := current_rest (by rw [zero]; decide)
    rw [zero] at behind
    dsimp only
    split
    · exact .fails _ _
    · exact further .zero behind
  · split
    · rename_i nonzero
      obtain ⟨rest, behind⟩ : ∃ rest, p.rest = p.current :: rest := by
        refine current_rest fun none => ?_
        rw [none] at nonzero
        exact absurd nonzero (by decide)
      obtain ⟨digits, rest', numerals, all, -, moved⟩ := skipWhile_cases isDigit (p.skip 1)
      rw [rest_skip_one behind] at numerals
      have whole : p.rest = (p.current :: digits) ++ rest' := by rw [behind, numerals]; rfl
      have there : (p.skip 1).skip digits.length = p.skip (p.current :: digits).length := by
        rw [skip_skip, List.length_cons, Nat.add_comm]
      rw [moved, there]
      exact further (.digits nonzero all) whole
    · exact .fails _ _

/-- **What is read of a number is one.** -/
theorem parseNumber_outcome (p : JsonParser) :
    Outcome p IsNumber (parseNumber p : Json D × JsonParser) := by
  rw [parseNumber]
  split
  · rename_i minus
    obtain ⟨rest, behind⟩ : ∃ rest, p.rest = p.current :: rest := current_rest (by rw [minus]; decide)
    rw [minus] at behind
    exact parseInteger_outcome (.inr rfl) (by rw [behind, rest_skip_one behind]; rfl) rfl
  · exact parseInteger_outcome (.inl rfl) rfl rfl

end

end Drunos.Json11.JsonParser
