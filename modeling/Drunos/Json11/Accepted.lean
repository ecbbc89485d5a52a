/-
# Drunos.Json11.Accepted — what the parser accepts

`parse_json` is held to the grammar from both sides (`Parses`): what it returns without an
error is what the text denotes, and what a text denotes it returns. The loops over values
and fields keep to that, one item after the other, and so do all levels (`parseJson_parses`).
A text with more levels is refused (`parseJson_deep`).
-/
import Drunos.Json11.Numbers

namespace Drunos.Json11.JsonParser

open Drunos.Theory

set_option autoImplicit false

variable {D : Type} {p : JsonParser} {t rest : List Byte}

/-! ## Strings and words -/

theorem parseString_eq {pieces : List Piece} (read : Pieces t pieces) (reads : p.rest = t ++ quote :: rest) :
    p.parseString = (decode pieces, (p.skip t.length).skip 1) := by
  rw [parseString, reads, scanChars_pieces read]
  rfl

theorem parseString_cases (p : JsonParser) : (∃ q, p.parseString = ([], q) ∧ q.failed ≠ none) ∨
    ∃ t pieces rest, Pieces t pieces ∧ p.rest = t ++ quote :: rest ∧
      p.parseString = (decode pieces, (p.skip t.length).skip 1) := by
  cases scanned : (scanChars 0 [] none p.rest).outcome with
  | error message =>
      refine .inl ⟨_, ?_, fail_failed message (p.skip (scanChars 0 [] none p.rest).length)⟩
      simp only [parseString, scanned]
  | ok s =>
      obtain ⟨t, pieces, rest, reads, -, read, -⟩ := scanChars_sound scanned
      exact .inr ⟨t, pieces, rest, read, reads, parseString_eq read reads⟩

theorem expect_eq {expected : List Byte} (v : Json D) (reads : p.rest = expected ++ rest) :
    (p.skip 1).expect expected v = (v, p.skip expected.length) := by
  have found : (p.skip 1).back.rest.take expected.length = expected := by
    rw [skip_back]
    exact reads ▸ List.take_left
  rw [expect, found, if_pos rfl]
  rfl

theorem expect_outcome (expected : List Byte) (v : Json D) (p : JsonParser) :
    Outcome p (fun t w => t = expected ∧ w = v) ((p.skip 1).expect expected v) := by
  by_cases found : expected = p.rest.take expected.length
  · obtain ⟨rest, reads⟩ := List.prefix_iff_eq_take.mpr found
    rw [expect_eq v reads.symm]
    exact .inr ⟨expected, rest, ⟨rfl, rfl⟩, reads.symm, rfl⟩
  · rw [expect]
    exact (if_neg found).symm ▸ .fails _ _

/-! ## Items -/

theorem isStart_visible {ch : Byte} (start : isStart ch = true) : isBlank ch = false := by
  rw [isStart, Bool.and_eq_true, Bool.not_eq_eq_eq_not] at start
  exact start.1

theorem Ends.blank {ws : List Byte} (blank : Blank ws) (ends : Ends rest) : Ends (ws ++ rest) := by
  cases ws with
  | nil => exact ends
  | cons ch ws =>
      intro _ mem
      obtain rfl := Option.some.inj mem
      have first := (Bool.and_eq_true_iff.mp blank).1
      simp only [isBlank, Bool.or_eq_true, beq_iff_eq] at first
      rcases first with ((rfl | rfl) | rfl) | rfl <;> decide

theorem Ends.cons {ch : Byte} (other : isDigit ch = false ∧ ch ≠ byte '.' ∧ ch ≠ byte 'e' ∧ ch ≠ byte 'E')
    (rest : List Byte) : Ends (ch :: rest) := by
  intro _ mem
  obtain rfl := Option.some.inj mem
  exact other

/-- Whitespace, and what is read behind it. -/
def Spaced (reads : List Byte → Json D → Prop) (t : List Byte) (v : Json D) : Prop :=
  ∃ ws t', t = ws ++ t' ∧ Blank ws ∧ reads t' v

/-- How `parse_json` parses the values with these texts. -/
structure Parses (parse : JsonParser → Option (Json D × JsonParser)) (below : List Byte → Json D → Prop) :
    Prop where
  outcome : ∀ {p : JsonParser}, Fine p → ∃ r, parse p = some r ∧ Outcome p (Spaced below) r
  failed : ∀ {p : JsonParser}, p.failed ≠ none → ∃ r, parse p = some r ∧ r.2.failed ≠ none
  reads : ∀ {p : JsonParser} {ws t rest : List Byte} {v : Json D}, Fine p → Blank ws → below t v →
    p.rest = ws ++ (t ++ rest) → Ends rest → parse p = some (v, (p.skip ws.length).skip t.length)
  head : ∀ {t : List Byte} {v : Json D}, below t v → ∃ ch rest, t = ch :: rest ∧ isStart ch = true

/-- It refuses the values that are in the second grammar only. -/
def Refuses (parse : JsonParser → Option (Json D × JsonParser)) (below below' : List Byte → Json D → Prop)
    (message : List Byte) : Prop :=
  ∀ {p : JsonParser} {ws t rest : List Byte} {v : Json D}, below' t v → ¬below t v → Fine p → Blank ws →
    p.rest = ws ++ (t ++ rest) → Ends rest → ∃ r, parse p = some r ∧ r.2.failed = some message

section

variable {parse : JsonParser → Option (Json D × JsonParser)} {below below' : List Byte → Json D → Prop}
  {ws ws' : List Byte} {v : Json D} {values : List (Json D)}

/-- Where an item ends and the next one starts. -/
theorem skip_item (t ws ws' : List Byte) (c : Byte) (p : JsonParser) :
    p.skip (t ++ ws ++ c :: ws').length = (((p.skip t.length).skip ws.length).skip 1).skip ws'.length := by
  simp only [skip_skip, List.length_append, List.length_cons]
  congr 1
  omega

/-- The first of the items is there. -/
theorem first_item {α : Type} {item : List Byte → α → Prop} {P : Byte → Prop} {vs : List α} {opening close : Byte}
    (listed : Listed item t vs) (head : ∀ t v, item t v → ∃ ch rest, t = ch :: rest ∧ P ch)
    (reads : p.rest = opening :: ws ++ t ++ [close] ++ rest) :
    p.rest = (opening :: ws) ++ (t ++ close :: rest) ∧ t.length < p.str.length + 1 ∧
      ∃ ch behind, P ch ∧ p.rest = opening :: ws ++ ch :: behind := by
  have whole : p.rest = (opening :: ws) ++ (t ++ close :: rest) := by simpa using reads
  have inside := p.rest_length
  rw [whole, List.length_append, List.length_append] at inside
  obtain ⟨ch, more, same, first⟩ := listed.head head
  refine ⟨whole, by omega, ch, more ++ close :: rest, first, ?_⟩
  rw [whole, same]
  rfl

/-- Behind a comma the next item is there. -/
theorem next_item {α : Type} {item : List Byte → α → Prop} {P : Byte → Prop} {vs : List α} {more : List Byte}
    {close : Byte} (listed : Listed item more vs) (head : ∀ t v, item t v → ∃ ch rest, t = ch :: rest ∧ P ch)
    (reads : p.rest = t ++ ws ++ byte ',' :: ws' ++ more ++ close :: rest) :
    (p.skip (t ++ ws ++ byte ',' :: ws').length).rest = more ++ close :: rest ∧
      ∃ ch behind, P ch ∧ p.rest = t ++ ws ++ byte ',' :: ws' ++ ch :: behind := by
  obtain ⟨ch, behind, same, first⟩ := listed.head head
  refine ⟨rest_skip (reads.trans (List.append_assoc ..)), ch, behind ++ close :: rest, first, ?_⟩
  rw [reads, same]
  simp

/-- Behind a comma the next item starts, or the text is at its end. -/
theorem comma_cases (fine : Fine p) (reads : p.rest = t ++ (ws ++ byte ',' :: rest)) :
    (∃ q, (((p.skip t.length).skip ws.length).skip 1).getNextToken = (0, q) ∧ q.failed ≠ none) ∨
      ∃ ws' ch more, Blank ws' ∧ isBlank ch = false ∧ p.rest = (t ++ ws ++ byte ',' :: ws') ++ ch :: more ∧
        (((p.skip t.length).skip ws.length).skip 1).getNextToken =
          (ch, (p.skip (t ++ ws ++ byte ',' :: ws').length).skip 1) := by
  have whole : p.rest = (t ++ ws ++ [byte ',']) ++ rest := by simpa using reads
  have place : ((p.skip t.length).skip ws.length).skip 1 = p.skip (t ++ ws ++ [byte ',']).length := by
    simp [Nat.add_assoc]
  rw [place]
  rcases getNextToken_cases (fine.skip whole) with failed | ⟨ws', ch, more, blank, visible, reads', token⟩
  · exact .inl failed
  · rw [rest_skip whole] at reads'
    refine .inr ⟨ws', ch, more, blank, visible, ?_, ?_⟩
    · rw [whole, reads']
      simp
    · rw [token, skip_length]
      simp

/-! ### Values -/

/-- A value is read, and another one follows. -/
theorem parseValues_item (parses : Parses parse below) (is : below t v) (blank : Blank ws) (blank' : Blank ws')
    (fine : Fine p) {ch : Byte} (visible : isBlank ch = false)
    (reads : p.rest = t ++ ws ++ byte ',' :: ws' ++ ch :: rest) (rounds : Nat) (data : List (Json D)) :
    parseValues parse (rounds + 1) data (p.skip 1) =
      parseValues parse rounds (data ++ [v]) ((p.skip (t ++ ws ++ byte ',' :: ws').length).skip 1) := by
  have behind : p.rest = t ++ (ws ++ byte ',' :: (ws' ++ ch :: rest)) := by simpa using reads
  have parsed : parse (p.skip 1).back = some (v, p.skip t.length) :=
    parses.reads fine (rfl : Blank []) is behind (.blank blank (.cons (by decide) _))
  have comma := getNextToken_eq blank (by decide) (rest_skip behind)
  have there : (((p.skip t.length).skip ws.length).skip 1).rest = ws' ++ ch :: rest :=
    rest_skip_one (rest_skip (rest_skip behind))
  rw [parseValues, parsed, Option.bind_some, skip_item]
  simp only [skip_failed, fine.none, comma, getNextToken_eq blank' visible there, Option.isSome_none,
    Bool.false_eq_true, if_false]
  rw [if_neg (by decide), if_neg (by simp)]

/-- The last value is read. -/
theorem parseValues_last (parses : Parses parse below) (is : below t v) (blank : Blank ws) (fine : Fine p)
    (reads : p.rest = t ++ ws ++ byte ']' :: rest) (rounds : Nat) (data : List (Json D)) :
    parseValues parse (rounds + 1) data (p.skip 1) =
      some (.array (data ++ [v]), (p.skip (t ++ ws).length).skip 1) := by
  have behind : p.rest = t ++ (ws ++ byte ']' :: rest) := by simpa using reads
  have parsed : parse (p.skip 1).back = some (v, p.skip t.length) :=
    parses.reads fine (rfl : Blank []) is behind (.blank blank (.cons (by decide) _))
  rw [parseValues, parsed, Option.bind_some]
  simp only [skip_failed, fine.none, getNextToken_eq blank (by decide) (rest_skip behind), Option.isSome_none,
    Bool.false_eq_true, if_false, if_true, skip_length]

/-- A value is refused. -/
theorem parseValues_refused {r : Json D × JsonParser} (parsed : parse p.back = some r)
    (failed : r.2.failed ≠ none) (rounds : Nat) (data : List (Json D)) :
    parseValues parse (rounds + 1) data p = some (.null, r.2) := by
  rw [parseValues, parsed, Option.bind_some]
  exact if_pos (Option.isSome_iff_ne_none.mpr failed)

/-- **The values of an array are read.** -/
theorem parseValues_eq (parses : Parses parse below) (listed : Listed below t values) {rounds : Nat}
    {data : List (Json D)} (fine : Fine p) (reads : p.rest = t ++ byte ']' :: rest)
    (enough : t.length < rounds) :
    parseValues parse rounds data (p.skip 1) = some (.array (data ++ values), (p.skip t.length).skip 1) := by
  induction listed generalizing rounds data p with
  | last is blank =>
      obtain ⟨rounds, rfl⟩ := Nat.exists_eq_add_one.mpr (Nat.zero_lt_of_lt enough)
      exact parseValues_last parses is blank fine reads rounds data
  | @cons t ws ws' more v values is blank blank' listed ih =>
      obtain ⟨rounds, rfl⟩ := Nat.exists_eq_add_one.mpr (Nat.zero_lt_of_lt enough)
      obtain ⟨place, ch, behind, start, next⟩ := next_item listed (fun _ _ => parses.head) reads
      rw [List.length_append] at enough
      rw [parseValues_item parses is blank blank' fine (isStart_visible start) next,
        ih (fine.skip next) place (by simp at enough; omega), skip_length, List.append_assoc]
      rfl

/-- **A value that is refused is not read.** -/
theorem parseValues_deep (parses : Parses parse below) (listed : Listed below' t values)
    (deep : ¬Listed below t values) {message : List Byte} (refused : Refuses parse below below' message)
    (head : ∀ t v, below' t v → ∃ ch rest, t = ch :: rest ∧ isStart ch = true) {rounds : Nat}
    {data : List (Json D)} (fine : Fine p) (reads : p.rest = t ++ byte ']' :: rest)
    (enough : t.length < rounds) :
    ∃ r, parseValues parse rounds data (p.skip 1) = some r ∧ r.2.failed = some message := by
  have stops {t ws more : List Byte} {v : Json D} {rounds : Nat} {data : List (Json D)} {p : JsonParser}
      (is : below' t v) (isNot : ¬below t v) (blank : Blank ws) (ends : Ends more) (fine : Fine p)
      (reads : p.rest = t ++ (ws ++ more)) :
      ∃ r, parseValues parse (rounds + 1) data (p.skip 1) = some r ∧ r.2.failed = some message := by
    obtain ⟨r, parsed, failed⟩ := refused is isNot fine (rfl : Blank []) reads (.blank blank ends)
    exact ⟨_, parseValues_refused (p := p.skip 1) parsed (failed ▸ Option.some_ne_none _) _ _, failed⟩
  induction listed generalizing rounds data p with
  | last is blank =>
      obtain ⟨rounds, rfl⟩ := Nat.exists_eq_add_one.mpr (Nat.zero_lt_of_lt enough)
      exact stops is (fun is => deep (.last is blank)) blank
        (.cons (by decide : isDigit (byte ']') = false ∧ _) rest) fine (by simpa using reads)
  | @cons t ws ws' more v values is blank blank' listed ih =>
      obtain ⟨rounds, rfl⟩ := Nat.exists_eq_add_one.mpr (Nat.zero_lt_of_lt enough)
      by_cases shallow : below t v
      · obtain ⟨place, ch, behind, start, next⟩ := next_item listed head reads
        rw [List.length_append] at enough
        rw [parseValues_item parses shallow blank blank' fine (isStart_visible start) next]
        exact ih (fun listed => deep (.cons shallow blank blank' listed)) (fine.skip next) place
          (by simp at enough; omega)
      · have reads : p.rest = t ++ (ws ++ byte ',' :: (ws' ++ more ++ byte ']' :: rest)) := by
          simpa using reads
        exact stops is shallow blank (.cons (by decide) _) fine reads

/-- **What is read of an array are values.** -/
theorem parseValues_outcome (parses : Parses parse below) (rounds : Nat) (data : List (Json D)) (fine : Fine p)
    {ch : Byte} (visible : isBlank ch = false) (first : p.rest = ch :: rest)
    (enough : p.str.length < rounds + p.i) :
    ∃ r, parseValues parse rounds data (p.skip 1) = some r ∧ Outcome p (fun t v =>
      ∃ t' values, t = t' ++ [byte ']'] ∧ Listed below t' values ∧ v = .array (data ++ values)) r := by
  induction rounds generalizing p data ch rest with
  | zero =>
      have := fine.inside
      omega
  | succ rounds ih =>
      obtain ⟨⟨v, q⟩, parsed, out⟩ := parses.outcome fine
      rcases out with failed | ⟨_, behind, ⟨ws, t, rfl, blank, is⟩, reads, rfl⟩
      · exact ⟨_, parseValues_refused (p := p.skip 1) parsed failed.1 _ _, .inl ⟨failed.1, .inl rfl⟩⟩
      obtain rfl : ws = [] := by
        cases ws with
        | nil => rfl
        | cons c ws =>
            obtain rfl : c = ch := (List.cons.inj (reads.symm.trans first)).1
            rw [(Bool.and_eq_true_iff.mp blank).1] at visible
            cases visible
      rw [List.nil_append] at reads parsed
      have fine' := fine.skip reads
      have parsed' : parse (p.skip 1).back = some (v, p.skip t.length) := parsed
      obtain ⟨c, t', same, -⟩ := parses.head is
      rw [parseValues, parsed', Option.bind_some]
      simp only [skip_failed, fine.none, Option.isSome_none, Bool.false_eq_true, if_false]
      rcases getNextToken_cases fine' with ⟨q, token, failed⟩ | ⟨ws, c, more, blank', visible', reads', token⟩
      · rw [token]
        exact ⟨_, rfl, .fails _ _⟩
      rw [rest_skip reads] at reads'
      simp only [token]
      split
      · rename_i close
        subst close
        refine ⟨_, rfl, .inr ⟨t ++ ws ++ [byte ']'], more, ⟨_, [v], rfl, .last is blank', rfl⟩, ?_, ?_⟩⟩
        · rw [reads, reads']
          simp
        · simp [Nat.add_assoc]
      · split
        · exact ⟨_, rfl, .fails _ _⟩
        · rename_i comma
          rw [not_not] at comma
          subst comma
          have next := reads
          rw [reads'] at next
          rcases comma_cases fine next with ⟨q, token, failed⟩ | ⟨ws', c, rest', blank'', visible'', whole, token⟩
          · obtain ⟨rounds, rfl⟩ : ∃ n, rounds = n + 1 := by
              have length := p.rest_length
              rw [next, same] at length
              simp at length
              exact Nat.exists_eq_add_one.mpr (by omega)
            obtain ⟨r, parsed, failed'⟩ := parses.failed (p := q.back) failed
            rw [token]
            exact ⟨_, parseValues_refused parsed failed' _ _, .inl ⟨failed', .inl rfl⟩⟩
          · rw [token]
            obtain ⟨r, parsed, out⟩ := ih (data ++ [v]) (fine.skip whole) visible'' (rest_skip whole) (by
              rw [skip_str, skip_i, same]
              simp
              omega)
            refine ⟨r, parsed, out.behind whole ?_⟩
            rintro u ⟨t', values, rfl, listed, value⟩
            refine ⟨t ++ ws ++ byte ',' :: ws' ++ t', v :: values, by simp, .cons is blank' blank'' listed, ?_⟩
            rw [value, List.append_assoc]
            rfl

/-! ### Fields -/

/-- The map of the fields that have been read. -/
def assigned (data fields : List (List Byte × Json D)) : List (List Byte × Json D) :=
  fields.foldl (fun map field => SortedMap.assign field.1 field.2 map) data

variable {field : List Byte × Json D} {fields data : List (List Byte × Json D)}

/-- A key is read, and the colon. -/
theorem parseFields_key {key : List Byte} {pieces : List Piece} (isKey : Pieces key pieces) (blank : Blank ws)
    (fine : Fine p) (reads : p.rest = quote :: key ++ quote :: ws ++ byte ':' :: rest) {r : Json D × JsonParser}
    (parsed : parse (p.skip (quote :: key ++ quote :: ws ++ [byte ':']).length) = some r)
    (rounds : Nat) (data : List (List Byte × Json D)) :
    parseFields parse (rounds + 1) data quote (p.skip 1) =
      if r.2.failed.isSome then some (.null, r.2)
      else
        let (ch, p) := r.2.getNextToken
        if ch = byte '\x7d' then some (.object (SortedMap.assign (decode pieces) r.1 data), p)
        else if ch ≠ byte ',' then some (.null, p.fail (text "expected ',' in object, got " ++ esc ch))
        else
          let (ch, p) := p.getNextToken
          parseFields parse rounds (SortedMap.assign (decode pieces) r.1 data) ch p := by
  have first : p.rest = quote :: (key ++ quote :: (ws ++ byte ':' :: rest)) := by simpa using reads
  have named := parseString_eq isKey (rest_skip_one first)
  have behind : (((p.skip 1).skip key.length).skip 1).rest = ws ++ byte ':' :: rest :=
    rest_skip_one (rest_skip (rest_skip_one first))
  have place : ((((p.skip 1).skip key.length).skip 1).skip ws.length).skip 1 =
      p.skip (quote :: key ++ quote :: ws ++ [byte ':']).length := by
    simp only [skip_skip, List.length_append, List.length_cons, List.length_nil]
    congr 1
    omega
  rw [parseFields, if_neg (not_not.mpr rfl)]
  simp only [named, skip_failed, fine.none, getNextToken_eq blank (by decide) behind, place, parsed,
    Option.isSome_none, Bool.false_eq_true, if_false, not_true_eq_false, ne_eq, Option.bind_some]

/-- A field is read. -/
theorem parseFields_field (parses : Parses parse below) (is : Field below t field) (fine : Fine p)
    (reads : p.rest = t ++ rest) (ends : Ends rest) (rounds : Nat) (data : List (List Byte × Json D)) :
    parseFields parse (rounds + 1) data quote (p.skip 1) =
      let (ch, p) := (p.skip t.length).getNextToken
      if ch = byte '\x7d' then some (.object (SortedMap.assign field.1 field.2 data), p)
      else if ch ≠ byte ',' then some (.null, p.fail (text "expected ',' in object, got " ++ esc ch))
      else
        let (ch, p) := p.getNextToken
        parseFields parse rounds (SortedMap.assign field.1 field.2 data) ch p := by
  cases is with
  | @mk key ws ws' t pieces v isKey blank blank' is =>
      have first : p.rest = quote :: key ++ quote :: ws ++ byte ':' :: (ws' ++ (t ++ rest)) := by
        simpa using reads
      have whole : p.rest = (quote :: key ++ quote :: ws ++ [byte ':']) ++ (ws' ++ (t ++ rest)) := by
        simpa using reads
      have parsed := parses.reads (fine.skip whole) blank' is (rest_skip whole) ends
      have place : ((p.skip (quote :: key ++ quote :: ws ++ [byte ':']).length).skip ws'.length).skip t.length =
          p.skip (quote :: key ++ quote :: ws ++ byte ':' :: ws' ++ t).length := by
        rw [skip_length, skip_length]
        simp
      rw [parseFields_key isKey blank fine first parsed, place]
      simp only [skip_failed, fine.none, Option.isSome_none, Bool.false_eq_true, if_false]

/-- A field is read, and another one follows. -/
theorem parseFields_item (parses : Parses parse below) (is : Field below t field) (blank : Blank ws)
    (blank' : Blank ws') (fine : Fine p) {ch : Byte} (visible : isBlank ch = false)
    (reads : p.rest = t ++ ws ++ byte ',' :: ws' ++ ch :: rest) (rounds : Nat)
    (data : List (List Byte × Json D)) :
    parseFields parse (rounds + 1) data quote (p.skip 1) =
      parseFields parse rounds (SortedMap.assign field.1 field.2 data) ch
        ((p.skip (t ++ ws ++ byte ',' :: ws').length).skip 1) := by
  have behind : p.rest = t ++ (ws ++ byte ',' :: (ws' ++ ch :: rest)) := by simpa using reads
  have there : (((p.skip t.length).skip ws.length).skip 1).rest = ws' ++ ch :: rest :=
    rest_skip_one (rest_skip (rest_skip behind))
  rw [parseFields_field parses is fine behind (.blank blank (.cons (by decide) _)), skip_item]
  simp only [getNextToken_eq blank (by decide) (rest_skip behind), getNextToken_eq blank' visible there]
  rw [if_neg (by decide), if_neg (by simp)]

/-- The last field is read. -/
theorem parseFields_last (parses : Parses parse below) (is : Field below t field) (blank : Blank ws)
    (fine : Fine p) (reads : p.rest = t ++ ws ++ byte '\x7d' :: rest) (rounds : Nat)
    (data : List (List Byte × Json D)) :
    parseFields parse (rounds + 1) data quote (p.skip 1) =
      some (.object (SortedMap.assign field.1 field.2 data), (p.skip (t ++ ws).length).skip 1) := by
  have behind : p.rest = t ++ (ws ++ byte '\x7d' :: rest) := by simpa using reads
  rw [parseFields_field parses is fine behind (.blank blank (.cons (by decide) _))]
  simp only [getNextToken_eq blank (by decide) (rest_skip behind), if_true, skip_length]

/-- A field starts with its key. -/
theorem Field.head (is : Field below t field) : ∃ ch rest, t = ch :: rest ∧ ch = quote := by
  cases is with
  | mk => exact ⟨quote, _, rfl, rfl⟩

/-- **The fields of an object are read.** -/
theorem parseFields_eq (parses : Parses parse below) (listed : Listed (Field below) t fields) {rounds : Nat}
    {data : List (List Byte × Json D)} (fine : Fine p) (reads : p.rest = t ++ byte '\x7d' :: rest)
    (enough : t.length < rounds) :
    parseFields parse rounds data quote (p.skip 1) =
      some (.object (assigned data fields), (p.skip t.length).skip 1) := by
  induction listed generalizing rounds data p with
  | last is blank =>
      obtain ⟨rounds, rfl⟩ := Nat.exists_eq_add_one.mpr (Nat.zero_lt_of_lt enough)
      exact parseFields_last parses is blank fine reads rounds data
  | @cons t ws ws' more field fields is blank blank' listed ih =>
      obtain ⟨rounds, rfl⟩ := Nat.exists_eq_add_one.mpr (Nat.zero_lt_of_lt enough)
      obtain ⟨place, _, behind, rfl, next⟩ := next_item listed (fun _ _ => Field.head) reads
      rw [List.length_append] at enough
      rw [parseFields_item parses is blank blank' fine (by decide) next,
        ih (fine.skip next) place (by simp at enough; omega), skip_length]
      rfl

/-- **A field whose value is refused is not read.** -/
theorem parseFields_deep (parses : Parses parse below) (listed : Listed (Field below') t fields)
    (deep : ¬Listed (Field below) t fields) {message : List Byte} (refused : Refuses parse below below' message)
    {rounds : Nat} {data : List (List Byte × Json D)} (fine : Fine p)
    (reads : p.rest = t ++ byte '\x7d' :: rest) (enough : t.length < rounds) :
    ∃ r, parseFields parse rounds data quote (p.skip 1) = some r ∧ r.2.failed = some message := by
  have stops {t ws more : List Byte} {field : List Byte × Json D} {rounds : Nat}
      {data : List (List Byte × Json D)} {p : JsonParser} (is : Field below' t field)
      (isNot : ¬Field below t field) (blank : Blank ws) (ends : Ends more) (fine : Fine p)
      (reads : p.rest = t ++ (ws ++ more)) :
      ∃ r, parseFields parse (rounds + 1) data quote (p.skip 1) = some r ∧ r.2.failed = some message := by
    cases is with
    | @mk key ws₁ ws₂ t pieces v isKey blank₁ blank₂ is =>
        have first : p.rest = quote :: key ++ quote :: ws₁ ++ byte ':' :: (ws₂ ++ (t ++ (ws ++ more))) := by
          simpa using reads
        have whole : p.rest = (quote :: key ++ quote :: ws₁ ++ [byte ':']) ++ (ws₂ ++ (t ++ (ws ++ more))) := by
          simpa using reads
        obtain ⟨r, parsed, failed⟩ := refused is (fun is => isNot (.mk isKey blank₁ blank₂ is)) (fine.skip whole)
          blank₂ (rest_skip whole) (.blank blank ends)
        refine ⟨_, (parseFields_key isKey blank₁ fine first parsed rounds data).trans (if_pos ?_), failed⟩
        exact Option.isSome_iff_ne_none.mpr (failed ▸ Option.some_ne_none _)
  induction listed generalizing rounds data p with
  | last is blank =>
      obtain ⟨rounds, rfl⟩ := Nat.exists_eq_add_one.mpr (Nat.zero_lt_of_lt enough)
      exact stops is (fun is => deep (.last is blank)) blank
        (.cons (by decide : isDigit (byte '\x7d') = false ∧ _) rest) fine (by simpa using reads)
  | @cons t ws ws' more field fields is blank blank' listed ih =>
      obtain ⟨rounds, rfl⟩ := Nat.exists_eq_add_one.mpr (Nat.zero_lt_of_lt enough)
      by_cases shallow : Field below t field
      · obtain ⟨place, _, behind, rfl, next⟩ := next_item listed (fun _ _ => Field.head) reads
        rw [List.length_append] at enough
        rw [parseFields_item parses shallow blank blank' fine (by decide) next]
        exact ih (fun listed => deep (.cons shallow blank blank' listed)) (fine.skip next) place
          (by simp at enough; omega)
      · have reads : p.rest = t ++ (ws ++ byte ',' :: (ws' ++ more ++ byte '\x7d' :: rest)) := by
          simpa using reads
        exact stops is shallow blank (.cons (by decide) _) fine reads

/-- A key and a colon are there, or nothing is read. -/
theorem parseFields_key_cases (parse : JsonParser → Option (Json D × JsonParser)) (fine : Fine p)
    (first : p.rest = quote :: rest) (rounds : Nat) (data : List (List Byte × Json D)) :
    (∃ r, parseFields parse (rounds + 1) data quote (p.skip 1) = some r ∧ r.2.failed ≠ none ∧ r.1 = .null) ∨
      ∃ key pieces ws more, Pieces key pieces ∧ Blank ws ∧
        p.rest = quote :: key ++ quote :: ws ++ byte ':' :: more := by
  rw [parseFields, if_neg (not_not.mpr rfl)]
  rcases parseString_cases (p.skip 1) with ⟨q, named, failed⟩ | ⟨key, pieces, behind, isKey, reads, named⟩
  · simp only [named, Option.isSome_iff_ne_none.mpr failed, if_true]
    exact .inl ⟨_, rfl, failed, rfl⟩
  have whole : p.rest = (quote :: key ++ [quote]) ++ behind := by
    rw [first, ← rest_skip_one first, reads]
    simp
  have place : ((p.skip 1).skip key.length).skip 1 = p.skip (quote :: key ++ [quote]).length := by
    simp [Nat.add_comm]
  simp only [named, place, skip_failed, fine.none, Option.isSome_none, Bool.false_eq_true, if_false]
  rcases getNextToken_cases (fine.skip whole) with ⟨q, token, -⟩ | ⟨ws, ch, more, blank, -, reads', token⟩
  · rw [token]
    exact .inl ⟨_, rfl, fail_failed _ _, rfl⟩
  · by_cases colon : ch = byte ':'
    · subst colon
      rw [rest_skip whole] at reads'
      exact .inr ⟨key, pieces, ws, more, isKey, blank, by rw [whole, reads']; simp⟩
    · rw [token]
      exact .inl ⟨_, if_pos colon, fail_failed _ _, rfl⟩

/-- **What is read of an object are fields.** -/
theorem parseFields_outcome (parses : Parses parse below) (rounds : Nat) (data : List (List Byte × Json D))
    (fine : Fine p) {ch : Byte} (first : p.rest = ch :: rest) (enough : p.str.length < rounds + p.i) :
    ∃ r, parseFields parse rounds data ch (p.skip 1) = some r ∧ Outcome p (fun t v =>
      ∃ t' fields, t = t' ++ [byte '\x7d'] ∧ Listed (Field below) t' fields ∧
        v = .object (assigned data fields)) r := by
  induction rounds generalizing p data ch rest with
  | zero =>
      have := fine.inside
      omega
  | succ rounds ih =>
      by_cases isQuote : ch = quote
      · subst isQuote
        rcases parseFields_key_cases parse fine first rounds data with
          ⟨r, parsed, failed, null⟩ | ⟨key, pieces, ws, more, isKey, blank, reads⟩
        · exact ⟨r, parsed, .inl ⟨failed, .inl null⟩⟩
        have whole : p.rest = (quote :: key ++ quote :: ws ++ [byte ':']) ++ more := by
          rw [reads]
          simp
        obtain ⟨⟨v, q⟩, parsed, out⟩ := parses.outcome (fine.skip whole)
        rw [parseFields_key isKey blank fine reads parsed]
        rcases out with failed | ⟨_, behind, ⟨ws', t, rfl, blank', is⟩, reads', rfl⟩
        · exact ⟨_, if_pos (Option.isSome_iff_ne_none.mpr failed.1), .inl ⟨failed.1, .inl rfl⟩⟩
        have isField : Field below (quote :: key ++ quote :: ws ++ byte ':' :: ws' ++ t) (decode pieces, v) :=
          .mk isKey blank blank' is
        obtain ⟨u, same, reads'⟩ : ∃ u, u = quote :: key ++ quote :: ws ++ byte ':' :: ws' ++ t ∧
            p.rest = u ++ behind := by
          refine ⟨_, rfl, ?_⟩
          rw [whole, ← rest_skip whole, reads']
          simp
        have place : (p.skip (quote :: key ++ quote :: ws ++ [byte ':']).length).skip (ws' ++ t).length =
            p.skip u.length := by
          rw [skip_length, same]
          simp
        rw [← same] at isField
        have long : 0 < u.length := by
          rw [same]
          exact Nat.succ_pos _
        simp only [place, skip_failed, fine.none, Option.isSome_none, Bool.false_eq_true, if_false]
        rcases getNextToken_cases (fine.skip reads') with
          ⟨q, token, failed⟩ | ⟨ws, c, more, blank', visible', reads'', token⟩
        · rw [token]
          exact ⟨_, rfl, .fails _ _⟩
        rw [rest_skip reads'] at reads''
        simp only [token]
        split
        · rename_i close
          subst close
          refine ⟨_, rfl, .inr ⟨u ++ ws ++ [byte '\x7d'], more, ⟨_, [_], rfl, .last isField blank', rfl⟩, ?_, ?_⟩⟩
          · rw [reads', reads'']
            simp
          · simp [Nat.add_assoc]
        · split
          · exact ⟨_, rfl, .fails _ _⟩
          · rename_i comma
            rw [not_not] at comma
            subst comma
            have next := reads'
            rw [reads''] at next
            rcases comma_cases fine next with
              ⟨q, token, failed⟩ | ⟨ws', c, rest', blank'', visible'', whole, token⟩
            · obtain ⟨rounds, rfl⟩ : ∃ n, rounds = n + 1 := by
                have length := p.rest_length
                rw [next] at length
                simp at length
                exact Nat.exists_eq_add_one.mpr (by omega)
              rw [token]
              exact ⟨_, if_pos (by decide : (0 : Byte) ≠ quote), .fails _ _⟩
            · rw [token]
              obtain ⟨r, parsed, out⟩ := ih (SortedMap.assign (decode pieces) v data) (fine.skip whole)
                (rest_skip whole) (by
                  rw [skip_str, skip_i]
                  simp
                  omega)
              refine ⟨r, parsed, out.behind whole ?_⟩
              rintro _ ⟨t', fields, rfl, listed, value⟩
              exact ⟨u ++ ws ++ byte ',' :: ws' ++ t', (decode pieces, v) :: fields, by simp,
                .cons isField blank' blank'' listed, value⟩
      · rw [parseFields, if_pos isQuote]
        exact ⟨_, rfl, .fails _ _⟩

/-! ## Values -/

variable [Doubles D]

/-- An array is opened. -/
theorem parseToken_values (parse : JsonParser → Option (Json D × JsonParser)) (blank : Blank ws) {ch : Byte}
    (start : isStart ch = true) (reads : p.rest = byte '[' :: ws ++ ch :: rest) :
    parseToken parse (byte '[') (p.skip 1) =
      parseValues parse (p.str.length + 1) [] ((p.skip (byte '[' :: ws).length).skip 1) := by
  have visible := isStart_visible start
  have behind : (p.skip 1).rest = ws ++ ch :: rest := rest_skip_one reads
  have other : ch ≠ byte ']' := by
    rintro rfl
    exact absurd start (by decide)
  have place : (p.skip 1).skip ws.length = p.skip (byte '[' :: ws).length := by simp [Nat.add_comm]
  rw [parseToken, if_neg (by decide), if_neg (by decide), if_neg (by decide), if_neg (by decide),
    if_neg (by decide), if_neg (by decide), if_pos rfl, getNextToken_eq blank visible behind, place]
  exact if_neg other

/-- An object is opened. -/
theorem parseToken_fields (parse : JsonParser → Option (Json D × JsonParser)) (blank : Blank ws)
    (reads : p.rest = byte '\x7b' :: ws ++ quote :: rest) :
    parseToken parse (byte '\x7b') (p.skip 1) =
      parseFields parse (p.str.length + 1) [] quote ((p.skip (byte '\x7b' :: ws).length).skip 1) := by
  have behind : (p.skip 1).rest = ws ++ quote :: rest := rest_skip_one reads
  have place : (p.skip 1).skip ws.length = p.skip (byte '\x7b' :: ws).length := by simp [Nat.add_comm]
  rw [parseToken, if_neg (by decide), if_neg (by decide), if_neg (by decide), if_neg (by decide),
    if_neg (by decide), if_pos rfl, getNextToken_eq blank (by decide) behind, place]
  exact if_neg (by decide)

/-- **A value is read from its first token on.** -/
theorem parseToken_eq (parses : Parses parse below) (is : Value below t v) (fine : Fine p)
    (reads : p.rest = t ++ rest) (ends : Ends rest) :
    parseToken parse p.current (p.skip 1) = some (v, p.skip t.length) := by
  cases is with
  | null =>
      have first : p.current = byte 'n' := current_cons reads
      rw [first, parseToken, if_neg (by decide), if_neg (by decide), if_neg (by decide), if_pos rfl,
        expect_eq _ reads]
  | bool value =>
      cases value
      · have reads : p.rest = text "false" ++ rest := reads
        have first : p.current = byte 'f' := current_cons reads
        rw [first, parseToken, if_neg (by decide), if_neg (by decide), if_pos rfl, expect_eq _ reads]
        rfl
      · have reads : p.rest = text "true" ++ rest := reads
        have first : p.current = byte 't' := current_cons reads
        rw [first, parseToken, if_neg (by decide), if_pos rfl, expect_eq _ reads]
        rfl
  | number lexeme =>
      obtain ⟨ch, more, same, first⟩ := lexeme.head
      have number := parseNumber_eq (D := D) lexeme reads ends
      have token : p.rest = ch :: (more ++ rest) := by rw [reads, same]; rfl
      rw [current_cons token, parseToken, if_pos first]
      exact congrArg some number
  | @string t pieces read =>
      have token : p.rest = quote :: (t ++ quote :: rest) := by simpa using reads
      have behind : (p.skip 1).rest = t ++ quote :: rest := rest_skip_one token
      rw [current_cons reads, parseToken, if_neg (by decide), if_neg (by decide), if_neg (by decide),
        if_neg (by decide), if_pos rfl, parseString_eq read behind]
      simp [Nat.add_comm]
  | @noValues ws blank =>
      have token : p.rest = byte '[' :: (ws ++ byte ']' :: rest) := by simpa using reads
      have behind : (p.skip 1).rest = ws ++ byte ']' :: rest := rest_skip_one token
      rw [current_cons reads, parseToken, if_neg (by decide), if_neg (by decide), if_neg (by decide),
        if_neg (by decide), if_neg (by decide), if_neg (by decide), if_pos rfl,
        getNextToken_eq blank (by decide) behind]
      simp [Nat.add_comm]
  | @values ws t values blank items =>
      obtain ⟨whole, enough, ch, more, start, opened⟩ := first_item items (fun _ _ => parses.head) reads
      rw [current_cons reads, parseToken_values parse blank start opened,
        parseValues_eq parses items (fine.skip whole) (rest_skip whole) enough, skip_length]
      simp [Nat.add_assoc]
  | @noFields ws blank =>
      have token : p.rest = byte '\x7b' :: (ws ++ byte '\x7d' :: rest) := by simpa using reads
      have behind : (p.skip 1).rest = ws ++ byte '\x7d' :: rest := rest_skip_one token
      rw [current_cons reads, parseToken, if_neg (by decide), if_neg (by decide), if_neg (by decide),
        if_neg (by decide), if_neg (by decide), if_pos rfl, getNextToken_eq blank (by decide) behind]
      simp [Nat.add_comm]
  | @fields ws t fields blank items =>
      obtain ⟨whole, enough, _, more, rfl, opened⟩ := first_item items (fun _ _ => Field.head) reads
      rw [current_cons reads, parseToken_fields parse blank opened,
        parseFields_eq parses items (fine.skip whole) (rest_skip whole) enough, skip_length]
      simp [assigned, SortedMap.ofList, Nat.add_assoc]

/-- **A value in which one is refused is not read.** -/
theorem parseToken_deep (parses : Parses parse below) (is : Value below' t v) (deep : ¬Value below t v)
    {message : List Byte} (refused : Refuses parse below below' message)
    (head : ∀ t v, below' t v → ∃ ch rest, t = ch :: rest ∧ isStart ch = true) (fine : Fine p)
    (reads : p.rest = t ++ rest) :
    ∃ r, parseToken parse p.current (p.skip 1) = some r ∧ r.2.failed = some message := by
  cases is with
  | null => exact absurd .null deep
  | bool value => exact absurd (.bool value) deep
  | number lexeme => exact absurd (.number lexeme) deep
  | string read => exact absurd (.string read) deep
  | noValues blank => exact absurd (.noValues blank) deep
  | noFields blank => exact absurd (.noFields blank) deep
  | @values ws t values blank items =>
      obtain ⟨whole, enough, ch, more, start, opened⟩ := first_item items head reads
      rw [current_cons reads, parseToken_values parse blank start opened]
      exact parseValues_deep parses items (fun items => deep (.values blank items)) refused head (fine.skip whole)
        (rest_skip whole) enough
  | @fields ws t fields blank items =>
      obtain ⟨whole, enough, _, more, rfl, opened⟩ := first_item items (fun _ _ => Field.head) reads
      rw [current_cons reads, parseToken_fields parse blank opened]
      exact parseFields_deep parses items (fun items => deep (.fields blank items)) refused (fine.skip whole)
        (rest_skip whole) enough

/-- **What is read from a token on is a value.** -/
theorem parseToken_outcome (parses : Parses parse below) (fine : Fine p) {ch : Byte}
    (visible : isBlank ch = false) (reads : p.rest = ch :: rest) :
    ∃ r, parseToken parse ch (p.skip 1) = some r ∧ Outcome p (Value below) r := by
  have word {expected : List Byte} {v : Json D} (is : Value below expected v) :
      Outcome p (Value below) ((p.skip 1).expect expected v) :=
    (expect_outcome expected v p).mono fun t same => by
      rw [same.1, same.2]
      exact is
  rw [parseToken]
  split
  · exact ⟨_, rfl, (parseNumber_outcome p).mono fun t is => is.2 ▸ .number is.1⟩
  split
  · exact ⟨_, rfl, word (.bool true)⟩
  split
  · exact ⟨_, rfl, word (.bool false)⟩
  split
  · exact ⟨_, rfl, word .null⟩
  split
  · rename_i isQuote
    subst isQuote
    rcases parseString_cases (p.skip 1) with ⟨q, named, failed⟩ | ⟨t, pieces, more, read, reads', named⟩
    · rw [named]
      exact ⟨_, rfl, .inl ⟨failed, .inr rfl⟩⟩
    · rw [named]
      refine ⟨_, rfl, .inr ⟨_, more, .string read, ?_, ?_⟩⟩
      · rw [reads, ← rest_skip_one reads, reads']
        simp
      · simp [Nat.add_comm]
  have fine' : Fine (p.skip 1) := fine.skip (t := [ch]) reads
  split
  · rename_i brace
    subst brace
    rcases getNextToken_cases fine' with ⟨q, token, failed⟩ | ⟨ws, c, more, blank, -, reads', token⟩
    · rw [token]
      exact ⟨_, (if_neg (by decide : (0 : Byte) ≠ byte '\x7d')).trans
        (if_pos (by decide : (0 : Byte) ≠ quote)), .fails _ _⟩
    · have whole : p.rest = (byte '\x7b' :: ws) ++ c :: more := by
        rw [reads, ← rest_skip_one reads, reads']
        rfl
      have place : (p.skip 1).skip ws.length = p.skip (byte '\x7b' :: ws).length := by simp [Nat.add_comm]
      rw [token, place]
      dsimp only
      split
      · rename_i close
        subst close
        exact ⟨_, rfl, .inr ⟨_, more, .noFields blank, by simpa using whole, by simp⟩⟩
      · obtain ⟨r, parsed, out⟩ := parseFields_outcome parses (p.str.length + 1) []
          (fine.skip whole) (rest_skip whole) (by simp; omega)
        refine ⟨r, parsed, out.behind whole ?_⟩
        rintro _ ⟨t, fields, rfl, listed, value⟩
        rw [value, ← List.append_assoc]
        exact .fields blank listed
  split
  · rename_i bracket
    subst bracket
    rcases getNextToken_cases fine' with ⟨q, token, failed⟩ | ⟨ws, c, more, blank, visible', reads', token⟩
    · obtain ⟨r, parsed, failed'⟩ := parses.failed (p := q.back) failed
      rw [token]
      exact ⟨_, parseValues_refused parsed failed' _ _, .inl ⟨failed', .inl rfl⟩⟩
    · have whole : p.rest = (byte '[' :: ws) ++ c :: more := by
        rw [reads, ← rest_skip_one reads, reads']
        rfl
      have place : (p.skip 1).skip ws.length = p.skip (byte '[' :: ws).length := by simp [Nat.add_comm]
      rw [token, place]
      dsimp only
      split
      · rename_i close
        subst close
        exact ⟨_, rfl, .inr ⟨_, more, .noValues blank, by simpa using whole, by simp⟩⟩
      · obtain ⟨r, parsed, out⟩ := parseValues_outcome parses (p.str.length + 1) []
          (fine.skip whole) visible' (rest_skip whole) (by simp; omega)
        refine ⟨r, parsed, out.behind whole ?_⟩
        rintro _ ⟨t, values, rfl, listed, value⟩
        rw [value, ← List.append_assoc]
        exact .values blank listed
  · exact ⟨_, rfl, .fails _ _⟩

end

/-! ## All levels -/

section

variable [Doubles D] {ws : List Byte} {v : Json D}

/-- After the first token it is there. -/
theorem parseJson_token (left : Nat) (fine : Fine p) (blank : Blank ws) {ch : Byte} (visible : isBlank ch = false)
    (reads : p.rest = ws ++ ch :: rest) :
    (parseJson (left + 1) p : Option (Json D × JsonParser)) =
      parseToken (parseJson left) ch ((p.skip ws.length).skip 1) := by
  rw [parseJson, getNextToken_eq blank visible reads]
  simp only [skip_failed, fine.none, Option.isSome_none, Bool.false_eq_true, if_false]

theorem parseJson_failed (left : Nat) (failed : p.failed ≠ none) :
    ∃ r : Json D × JsonParser, parseJson left p = some r ∧ r.2.failed ≠ none := by
  cases left with
  | zero => exact ⟨_, rfl, fail_failed _ _⟩
  | succ left =>
      have still := getNextToken_failed failed
      exact ⟨_, if_pos (Option.isSome_iff_ne_none.mpr still), still⟩

/-- **What is parsed is what the texts denote.** -/
theorem parseJson_parses : ∀ left, Parses (parseJson left) (Denotes left : List Byte → Json D → Prop)
  | 0 =>
      ⟨fun _ => ⟨_, rfl, .fails _ _⟩, parseJson_failed 0, fun _ _ is => is.elim, Denotes.head⟩
  | left + 1 => by
      have parses := parseJson_parses left
      refine ⟨fun {p} fine => ?_, parseJson_failed (left + 1), fun {p ws t rest v} fine blank is reads ends => ?_,
        Denotes.head⟩
      · rcases getNextToken_cases fine with ⟨q, token, failed⟩ | ⟨ws, ch, rest, blank, visible, reads, -⟩
        · refine ⟨(.null, q), ?_, .inl ⟨failed, .inl rfl⟩⟩
          rw [parseJson, token]
          exact if_pos (Option.isSome_iff_ne_none.mpr failed)
        · obtain ⟨r, parsed, out⟩ := parseToken_outcome parses (fine.skip reads) visible (rest_skip reads)
          rw [parseJson_token left fine blank visible reads]
          exact ⟨r, parsed, out.behind reads fun t is => ⟨ws, t, rfl, blank, is⟩⟩
      · obtain ⟨ch, more, same, start⟩ := is.head
        have token : p.rest = ws ++ ch :: (more ++ rest) := by rw [reads, same]; rfl
        have first : (p.skip ws.length).current = ch := current_cons (rest_skip token)
        rw [parseJson_token left fine blank (isStart_visible start) token, ← first]
        exact parseToken_eq parses is (fine.skip reads) (rest_skip reads) ends

/-- **Too many levels are refused.** -/
theorem parseJson_deep : ∀ {left levels : Nat} {p : JsonParser} {ws t rest : List Byte} {v : Json D},
    Denotes levels t v → ¬Denotes left t v → Fine p → Blank ws → p.rest = ws ++ (t ++ rest) →
      ∃ r : Json D × JsonParser, parseJson left p = some r ∧ r.2.failed = some tooDeep
  | 0, _, p, _, _, _, _, _, _, fine, _, _ => ⟨_, rfl, by simp [fail, fine.none]⟩
  | _ + 1, 0, _, _, _, _, _, is, _, _, _, _ => is.elim
  | left + 1, levels + 1, p, ws, t, rest, v, is, deep, fine, blank, reads => by
      obtain ⟨ch, more, same, start⟩ := is.head
      have token : p.rest = ws ++ ch :: (more ++ rest) := by rw [reads, same]; rfl
      have first : (p.skip ws.length).current = ch := current_cons (rest_skip token)
      rw [parseJson_token left fine blank (isStart_visible start) token, ← first]
      exact parseToken_deep (parseJson_parses left) is deep
        (fun is isNot fine blank reads _ => parseJson_deep is isNot fine blank reads) (fun _ _ => Denotes.head)
        (fine.skip reads) (rest_skip reads)

end

end Drunos.Json11.JsonParser
