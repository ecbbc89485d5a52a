/-
# Drunos.Json11.Parser — the parser of JSON texts

`JsonParser` reads a text by the index of the next byte. `parse_json` calls itself for the
values in arrays and objects, at most 200 deep; its loops are given one round more than the
text has bytes, which is always enough (`parse_iff`). What a part of the parser has done is
its `Outcome`: it has read a text, or there is an error.
-/
import Drunos.Json11.Grammar

namespace Drunos.Json11

open Drunos.Theory

set_option autoImplicit false

/-- `max_depth` -/
def maxDepth : Nat := 200

structure JsonParser where
  str : List Byte
  i : Nat
  /-- `err`, once parsing has failed. -/
  failed : Option (List Byte) := none

variable {D : Type}

namespace JsonParser

/-- The text from the next byte on. -/
def rest (p : JsonParser) : List Byte := p.str.drop p.i

/-- `str[i]`, which is 0 at the end. -/
def current (p : JsonParser) : Byte := p.rest.headD 0

def skip (n : Nat) (p : JsonParser) : JsonParser := { p with i := p.i + n }

def back (p : JsonParser) : JsonParser := { p with i := p.i - 1 }

/-- The first error is kept. -/
def fail (message : List Byte) (p : JsonParser) : JsonParser :=
  { p with failed := p.failed.or (some message) }

def skipWhile (f : Byte → Bool) (p : JsonParser) : JsonParser := p.skip (p.rest.takeWhile f).length

def consumeWhitespace (p : JsonParser) : JsonParser := p.skipWhile isBlank

def getNextToken (p : JsonParser) : Byte × JsonParser :=
  let p := p.consumeWhitespace
  if p.i = p.str.length then (0, p.fail (text "unexpected end of input"))
  else (p.current, p.skip 1)

def parseString (p : JsonParser) : List Byte × JsonParser :=
  let scanned := scanChars 0 [] none p.rest
  match scanned.outcome with
  | .ok s => (s, p.skip scanned.length)
  | .error message => ([], (p.skip scanned.length).fail message)

/-- What has been read since the start of a number. -/
def lexeme (start p : JsonParser) : List Byte := start.rest.take (p.i - start.i)

/-- `parse_number` from the exponent on. -/
def parseExponent [Doubles D] (start p : JsonParser) : Json D × JsonParser :=
  if p.current = byte 'e' ∨ p.current = byte 'E' then
    let p := p.skip 1
    let p := if p.current = byte '+' ∨ p.current = byte '-' then p.skip 1 else p
    if isDigit p.current then
      let p := p.skipWhile isDigit
      (.double (Doubles.atof (lexeme start p)), p)
    else (.null, p.fail (text "at least one digit required in exponent"))
  else (.double (Doubles.atof (lexeme start p)), p)

/-- `parse_number` from the decimal part on. -/
def parseFraction [Doubles D] (start p : JsonParser) : Json D × JsonParser :=
  if (p.current ≠ byte '.' ∧ p.current ≠ byte 'e' ∧ p.current ≠ byte 'E') ∧ p.i - start.i ≤ 9 then
    (.int (BitVec.ofInt 32 (atoi (lexeme start p))), p)
  else if p.current = byte '.' then
    let p := p.skip 1
    if isDigit p.current then parseExponent start (p.skipWhile isDigit)
    else (.null, p.fail (text "at least one digit required in fractional part"))
  else parseExponent start p

/-- `parse_number` from the integer part on. -/
def parseInteger [Doubles D] (start p : JsonParser) : Json D × JsonParser :=
  if p.current = byte '0' then
    let p := p.skip 1
    if isDigit p.current then (.null, p.fail (text "leading 0s not permitted in numbers"))
    else parseFraction start p
  else if within p.current '1' '9' then parseFraction start ((p.skip 1).skipWhile isDigit)
  else (.null, p.fail (text "invalid " ++ esc p.current ++ text " in number"))

def parseNumber [Doubles D] (p : JsonParser) : Json D × JsonParser :=
  parseInteger p (if p.current = byte '-' then p.skip 1 else p)

def expect (expected : List Byte) (res : Json D) (p : JsonParser) : Json D × JsonParser :=
  let p := p.back
  let found := p.rest.take expected.length
  if expected = found then (res, p.skip expected.length)
  else (.null, p.fail (text "parse error: expected " ++ expected ++ text ", got " ++ found))

/-- The loop over the values of an array. -/
def parseValues (parseJson : JsonParser → Option (Json D × JsonParser)) :
    Nat → List (Json D) → JsonParser → Option (Json D × JsonParser)
  | 0, _, _ => none
  | rounds + 1, data, p =>
      (parseJson p.back).bind fun (value, p) =>
        let data := data ++ [value]
        if p.failed.isSome then some (.null, p)
        else
          let (ch, p) := p.getNextToken
          if ch = byte ']' then some (.array data, p)
          else if ch ≠ byte ',' then
            some (.null, p.fail (text "expected ',' in list, got " ++ esc ch))
          else parseValues parseJson rounds data p.getNextToken.2

/-- The loop over the fields of an object. -/
def parseFields (parseJson : JsonParser → Option (Json D × JsonParser)) :
    Nat → List (List Byte × Json D) → Byte → JsonParser → Option (Json D × JsonParser)
  | 0, _, _, _ => none
  | rounds + 1, data, ch, p =>
      if ch ≠ quote then some (.null, p.fail (text "expected '\"' in object, got " ++ esc ch))
      else
        let (key, p) := p.parseString
        if p.failed.isSome then some (.null, p)
        else
          let (ch, p) := p.getNextToken
          if ch ≠ byte ':' then some (.null, p.fail (text "expected ':' in object, got " ++ esc ch))
          else
            (parseJson p).bind fun (value, p) =>
              let data := SortedMap.assign key value data
              if p.failed.isSome then some (.null, p)
              else
                let (ch, p) := p.getNextToken
                if ch = byte '\x7d' then some (.object data, p)
                else if ch ≠ byte ',' then
                  some (.null, p.fail (text "expected ',' in object, got " ++ esc ch))
                else
                  let (ch, p) := p.getNextToken
                  parseFields parseJson rounds data ch p

/-- `parse_json` from the first token on. -/
def parseToken [Doubles D] (parseJson : JsonParser → Option (Json D × JsonParser)) (ch : Byte)
    (p : JsonParser) : Option (Json D × JsonParser) :=
  if ch = byte '-' ∨ isDigit ch = true then some (parseNumber p.back)
  else if ch = byte 't' then some (p.expect (text "true") (.bool true))
  else if ch = byte 'f' then some (p.expect (text "false") (.bool false))
  else if ch = byte 'n' then some (p.expect (text "null") .null)
  else if ch = quote then
    let (s, p) := p.parseString
    some (.string s, p)
  else if ch = byte '\x7b' then
    let (ch, p) := p.getNextToken
    if ch = byte '\x7d' then some (.object [], p)
    else parseFields parseJson (p.str.length + 1) [] ch p
  else if ch = byte '[' then
    let (ch, p) := p.getNextToken
    if ch = byte ']' then some (.array [], p)
    else parseValues parseJson (p.str.length + 1) [] p
  else some (.null, p.fail (text "expected value, got " ++ esc ch))

def tooDeep : List Byte := text "exceeded maximum nesting depth"

/-- `parse_json`, with so many levels left. -/
def parseJson [Doubles D] : Nat → JsonParser → Option (Json D × JsonParser)
  | 0, p => some (.null, p.fail tooDeep)
  | left + 1, p =>
      let (ch, p) := p.getNextToken
      if p.failed.isSome then some (.null, p) else parseToken (parseJson left) ch p

end JsonParser

open JsonParser

/-- `Json::parse`: the value, and the error if there is one. -/
def Json.parse [Doubles D] (str : List Byte) : Option (Json D × Option (List Byte)) :=
  (parseJson (maxDepth + 1) ⟨str, 0, none⟩).map fun (result, p) =>
    let p := p.consumeWhitespace
    if p.i ≠ str.length then (.null, (p.fail (text "unexpected trailing " ++ esc p.current)).failed)
    else (result, p.failed)

/-! ## Reading on -/

namespace JsonParser

variable {p : JsonParser} {t rest : List Byte}

@[simp] theorem skip_str (n : Nat) (p : JsonParser) : (p.skip n).str = p.str := rfl

@[simp] theorem skip_i (n : Nat) (p : JsonParser) : (p.skip n).i = p.i + n := rfl

@[simp] theorem skip_failed (n : Nat) (p : JsonParser) : (p.skip n).failed = p.failed := rfl

@[simp] theorem skip_skip (n m : Nat) (p : JsonParser) : (p.skip n).skip m = p.skip (n + m) := by
  simp [skip, Nat.add_assoc]

@[simp] theorem skip_back (n : Nat) (p : JsonParser) : (p.skip (n + 1)).back = p.skip n := rfl

theorem skip_length (a b : List Byte) (p : JsonParser) :
    (p.skip a.length).skip b.length = p.skip (a ++ b).length := by simp

theorem fail_failed (message : List Byte) (p : JsonParser) : (p.fail message).failed ≠ none := by
  cases failed : p.failed <;> simp [fail, failed]

theorem rest_skip (reads : p.rest = t ++ rest) : (p.skip t.length).rest = rest := by
  have later : (p.skip t.length).rest = p.rest.drop t.length := by
    simp [JsonParser.rest, skip, List.drop_drop]
  rw [later, reads, List.drop_left]

theorem rest_skip_one {ch : Byte} (reads : p.rest = ch :: rest) : (p.skip 1).rest = rest :=
  rest_skip (t := [ch]) reads

theorem current_cons {ch : Byte} (reads : p.rest = ch :: rest) : p.current = ch := by
  rw [current, reads]
  rfl

theorem rest_length (p : JsonParser) : p.rest.length = p.str.length - p.i := List.length_drop

/-- What is read ends where the text does at the latest. -/
theorem skip_inside (reads : p.rest = t ++ rest) (inside : p.i ≤ p.str.length) :
    (p.skip t.length).i ≤ (p.skip t.length).str.length := by
  have length := p.rest_length
  rw [reads, List.length_append] at length
  simp only [skip_i, skip_str]
  omega

theorem skipWhile_eq {f : Byte → Bool} (reads : p.rest = t ++ rest) (all : t.all f = true)
    (stops : ∀ ch ∈ rest.head?, f ch = false) : p.skipWhile f = p.skip t.length := by
  have taken : p.rest.takeWhile f = t := by
    rw [reads, List.takeWhile_append_of_pos (List.all_eq_true.mp all)]
    cases rest with
    | nil => simp
    | cons ch rest => simp [stops ch rfl]
  rw [skipWhile, taken]

/-- Where a scanner stops. -/
theorem skipWhile_cases (f : Byte → Bool) (p : JsonParser) : ∃ t rest, p.rest = t ++ rest ∧
    t.all f = true ∧ (∀ ch ∈ rest.head?, f ch = false) ∧ p.skipWhile f = p.skip t.length := by
  refine ⟨p.rest.takeWhile f, p.rest.dropWhile f, (List.takeWhile_append_dropWhile ..).symm,
    List.all_takeWhile, fun ch mem => ?_, rfl⟩
  have stops := List.head?_dropWhile_not f p.rest
  rw [mem] at stops
  simpa using stops

/-- Parsing goes on. -/
structure Fine (p : JsonParser) : Prop where
  inside : p.i ≤ p.str.length
  none : p.failed = none

theorem Fine.skip (fine : Fine p) (reads : p.rest = t ++ rest) : Fine (p.skip t.length) :=
  ⟨skip_inside reads fine.inside, fine.none⟩

/-- The next token is there. -/
theorem getNextToken_eq {ws : List Byte} {ch : Byte} (blank : Blank ws) (visible : isBlank ch = false)
    (reads : p.rest = ws ++ ch :: rest) : p.getNextToken = (ch, (p.skip ws.length).skip 1) := by
  have there : (p.skip ws.length).rest = ch :: rest := rest_skip reads
  have inside : (p.skip ws.length).i ≠ (p.skip ws.length).str.length := by
    intro same
    have length := (p.skip ws.length).rest_length
    rw [there, same] at length
    simp at length
  have moved : p.consumeWhitespace = p.skip ws.length :=
    skipWhile_eq reads blank fun _ mem => by
      obtain rfl := Option.some.inj mem
      exact visible
  rw [getNextToken, moved]
  simp only [if_neg inside, current_cons there]

/-- The next token is there, or the text is at its end. -/
theorem getNextToken_cases (fine : Fine p) : (∃ q, p.getNextToken = (0, q) ∧ q.failed ≠ none) ∨
    ∃ ws ch rest, Blank ws ∧ isBlank ch = false ∧ p.rest = ws ++ ch :: rest ∧
      p.getNextToken = (ch, (p.skip ws.length).skip 1) := by
  obtain ⟨ws, rest, reads, blank, stops, moved⟩ := skipWhile_cases isBlank p
  cases rest with
  | nil =>
      have length := p.rest_length
      have inside := fine.inside
      rw [reads, List.append_nil] at length
      have atEnd : (p.skip ws.length).i = (p.skip ws.length).str.length := by
        simp only [skip_i, skip_str]
        omega
      refine .inl ⟨(p.skip ws.length).fail (text "unexpected end of input"), ?_, fail_failed _ _⟩
      rw [getNextToken, consumeWhitespace, moved]
      exact if_pos atEnd
  | cons ch rest =>
      have visible := stops ch rfl
      exact .inr ⟨ws, ch, rest, blank, visible, reads, getNextToken_eq blank visible reads⟩

/-- Parsing has failed for good. -/
theorem getNextToken_failed (failed : p.failed ≠ none) : p.getNextToken.2.failed ≠ none := by
  rw [getNextToken]
  split
  · exact fail_failed _ _
  · exact failed

/-! ## Results -/

/-- What is returned has been read, or nothing is because of an error. -/
def Outcome (p : JsonParser) (reads : List Byte → Json D → Prop) (r : Json D × JsonParser) : Prop :=
  (r.2.failed ≠ none ∧ (r.1 = .null ∨ r.1 = .string [])) ∨
    ∃ t rest, reads t r.1 ∧ p.rest = t ++ rest ∧ r.2 = p.skip t.length

variable {reads reads' : List Byte → Json D → Prop} {r : Json D × JsonParser}

theorem Outcome.fails (message : List Byte) (q : JsonParser) :
    Outcome p reads (.null, q.fail message) := .inl ⟨fail_failed _ _, .inl rfl⟩

theorem Outcome.mono (out : Outcome p reads r) (more : ∀ t, reads t r.1 → reads' t r.1) :
    Outcome p reads' r := by
  rcases out with failed | ⟨t, rest, read, text, place⟩
  · exact .inl failed
  · exact .inr ⟨t, rest, more t read, text, place⟩

/-- What is read further on is read with what is before it. -/
theorem Outcome.behind {front : List Byte} (out : Outcome (p.skip front.length) reads r)
    (before : p.rest = front ++ rest) (more : ∀ t, reads t r.1 → reads' (front ++ t) r.1) :
    Outcome p reads' r := by
  rcases out with failed | ⟨t, rest', read, text, place⟩
  · exact .inl failed
  · rw [rest_skip before] at text
    refine .inr ⟨front ++ t, rest', more t read, ?_, ?_⟩
    · rw [before, text, List.append_assoc]
    · rw [place, skip_length]

end JsonParser

end Drunos.Json11
