/-
# Drunos.Json11.Texts — `Json::parse` and `dump`

`Json::parse` returns for every text. Without an error it returns for exactly the JSON
texts that do not go deeper than 200, and what they denote (`parse_iff`). It undoes `dump`,
up to the type of a number, for exactly the values that are not deeper (`parse_dump`).
-/
import Drunos.Json11.Accepted

namespace Drunos.Json11

open JsonParser

set_option autoImplicit false

variable {D : Type} [Doubles D]

/-- A whole text, with whitespace around it. -/
def IsText (levels : Nat) (str : List Byte) (v : Json D) : Prop :=
  ∃ ws t ws', str = ws ++ (t ++ ws') ∧ Blank ws ∧ Blank ws' ∧ Denotes levels t v

theorem IsText.mono {levels more : Nat} {str : List Byte} {v : Json D} (is : IsText levels str v)
    (le : levels ≤ more) : IsText more str v := by
  obtain ⟨ws, t, ws', same, blank, blank', is⟩ := is
  exact ⟨ws, t, ws', same, blank, blank', is.mono le⟩

theorem fine_start (str : List Byte) : Fine ⟨str, 0, none⟩ := ⟨Nat.zero_le _, rfl⟩

/-- A number may end before whitespace, and where the text does. -/
theorem ends_blank {ws : List Byte} (blank : Blank ws) : Ends ws := by
  have ends : Ends (ws ++ []) := .blank blank fun _ mem => by cases mem
  rwa [List.append_nil] at ends

/-- With so many levels left a text is parsed. -/
theorem parse_text {levels : Nat} {str : List Byte} {v : Json D} (is : IsText levels str v) :
    ∃ p, parseJson levels ⟨str, 0, none⟩ = some (v, p) ∧ p.failed = none ∧
      p.consumeWhitespace.i = str.length := by
  obtain ⟨ws, t, ws', rfl, blank, blank', is⟩ := is
  have reads : (⟨ws ++ (t ++ ws'), 0, none⟩ : JsonParser).rest = ws ++ (t ++ ws') := rfl
  have parsed := (parseJson_parses levels).reads (fine_start _) blank is reads (ends_blank blank')
  refine ⟨_, parsed, rfl, ?_⟩
  have behind : ((JsonParser.skip ws.length ⟨ws ++ (t ++ ws'), 0, none⟩).skip t.length).rest = ws' ++ [] := by
    rw [rest_skip (rest_skip reads), List.append_nil]
  have last := skipWhile_eq behind blank' fun _ mem => by cases mem
  rw [consumeWhitespace, last]
  simp [Nat.add_assoc]

/-- A text denotes one value, whatever its levels. -/
theorem IsText.unique {levels more : Nat} {str : List Byte} {v w : Json D} (is : IsText levels str v)
    (is' : IsText more str w) : v = w := by
  obtain ⟨p, parsed, -⟩ := parse_text (is.mono (Nat.le_max_left levels more))
  obtain ⟨q, parsed', -⟩ := parse_text (is'.mono (Nat.le_max_right levels more))
  exact congrArg Prod.fst (Option.some.inj (parsed.symm.trans parsed'))

/-- The result of `parse`, once the whole text has been read. -/
theorem parse_last {str : List Byte} {v : Json D} {p : JsonParser}
    (parsed : parseJson (maxDepth + 1) ⟨str, 0, none⟩ = some (v, p))
    (last : p.consumeWhitespace.i = str.length) : Json.parse str = some (v, p.failed) := by
  rw [Json.parse, parsed, Option.map_some]
  exact congrArg some (if_neg (not_not.mpr last))

/-- The result of `parse`, when not all has been read or there has been an error. -/
theorem parse_error {str : List Byte} {v : Json D} {p : JsonParser}
    (parsed : parseJson (maxDepth + 1) ⟨str, 0, none⟩ = some (v, p)) {err : List Byte}
    (failed : p.failed = some err) :
    ∃ w : Json D, Json.parse str = some (w, some err) ∧ (w = v ∨ w = .null) := by
  rw [Json.parse, parsed, Option.map_some]
  have still (message : List Byte) : (p.consumeWhitespace.fail message).failed = some err := by
    have same : p.consumeWhitespace.failed = some err := failed
    simp [fail, same]
  dsimp only
  split
  · exact ⟨.null, by rw [still], .inr rfl⟩
  · exact ⟨v, congrArg (fun e => some (v, e)) failed, .inl rfl⟩

/-- A text with no more than the allowed levels is accepted. -/
theorem parse_isText {str : List Byte} {v : Json D} (is : IsText (maxDepth + 1) str v) :
    Json.parse str = some (v, none) := by
  obtain ⟨p, parsed, fine, last⟩ := parse_text is
  rw [parse_last parsed last, fine]

/-- Any other text is refused for its levels. -/
theorem parse_isText_deep {levels : Nat} {str : List Byte} {v : Json D} (is : IsText levels str v)
    (deep : ¬IsText (maxDepth + 1) str v) : ∃ w : Json D, Json.parse str = some (w, some tooDeep) := by
  obtain ⟨ws, t, ws', rfl, blank, blank', is⟩ := is
  have isNot : ¬Denotes (maxDepth + 1) t v := fun is => deep ⟨ws, t, ws', rfl, blank, blank', is⟩
  obtain ⟨⟨w, p⟩, parsed, failed⟩ := parseJson_deep is isNot (fine_start _) blank rfl
  obtain ⟨w, parsed, -⟩ := parse_error parsed failed
  exact ⟨w, parsed⟩

/-- What is accepted is such a text. -/
theorem parse_cases (str : List Byte) : (∃ v : Json D, Json.parse str = some (v, none) ∧
      IsText (maxDepth + 1) str v) ∨
    ∃ (v : Json D) (err : List Byte), Json.parse str = some (v, some err) ∧ (v = .null ∨ v = .string []) := by
  obtain ⟨⟨v, p⟩, parsed, out⟩ := (parseJson_parses (D := D) (maxDepth + 1)).outcome (fine_start str)
  rcases out with ⟨failed, value⟩ | ⟨_, rest, ⟨ws, t, rfl, blank, is⟩, reads, rfl⟩
  · obtain ⟨err, failed⟩ := Option.ne_none_iff_exists'.mp failed
    obtain ⟨w, result, same⟩ := parse_error parsed failed
    refine .inr ⟨w, err, result, ?_⟩
    rcases same with rfl | rfl
    · exact value
    · exact .inl rfl
  · have whole : str = (ws ++ t) ++ rest := reads
    by_cases last : (JsonParser.skip (ws ++ t).length ⟨str, 0, none⟩).consumeWhitespace.i = str.length
    · obtain ⟨ws', more, behind, blank', -, moved⟩ :=
        skipWhile_cases isBlank (JsonParser.skip (ws ++ t).length ⟨str, 0, none⟩)
      rw [rest_skip reads] at behind
      have ended : more = [] := by
        rw [consumeWhitespace, moved] at last
        rw [whole, behind] at last
        simp only [skip_i, List.length_append] at last
        exact List.eq_nil_of_length_eq_zero (by omega)
      rw [ended, List.append_nil] at behind
      rw [behind, List.append_assoc] at whole
      exact .inl ⟨v, parse_last parsed last, ws, t, ws', whole, blank, blank', is⟩
    · rw [Json.parse, parsed, Option.map_some]
      exact .inr ⟨.null, _, congrArg some (if_pos last), .inl rfl⟩

/-- **Exactly the JSON texts are accepted, as what they denote.** -/
theorem parse_iff (str : List Byte) : ∃ (v : Json D) (err : Option (List Byte)), Json.parse str = some (v, err) ∧
    (∀ w, IsText (maxDepth + 1) str w ↔ err = none ∧ w = v) ∧
    (∀ levels w, IsText levels str w → err = none ∧ w = v ∨ err = some tooDeep) ∧
    (err = none → v.Ordered ∧ v.depth ≤ maxDepth) ∧ (err ≠ none → v = .null ∨ v = .string []) := by
  rcases parse_cases (D := D) str with ⟨v, parsed, is⟩ | ⟨v, err, parsed, value⟩
  · refine ⟨v, none, parsed, fun w => ⟨fun is' => ⟨rfl, is'.unique is⟩, ?_⟩, ?_, ?_, fun some => absurd rfl some⟩
    · rintro ⟨-, rfl⟩
      exact is
    · exact fun levels w is' => .inl ⟨rfl, is'.unique is⟩
    · obtain ⟨_, _, _, _, _, _, is⟩ := is
      exact fun _ => ⟨is.ordered, Nat.le_of_lt_succ is.depth⟩
  · have refuses : ∀ w : Json D, ¬IsText (maxDepth + 1) str w := by
      intro w is
      have accepted : some (v, some err) = some (w, none) := parsed.symm.trans (parse_isText is)
      exact Option.some_ne_none err (congrArg Prod.snd (Option.some.inj accepted))
    refine ⟨v, some err, parsed, fun w => ⟨fun is => absurd is (refuses w), ?_⟩, ?_, ?_, fun _ => value⟩
    · exact fun fine => absurd fine.1 (Option.some_ne_none _)
    · intro levels w is
      obtain ⟨u, deep⟩ := parse_isText_deep is (refuses w)
      exact .inr (congrArg Prod.snd (Option.some.inj (parsed.symm.trans deep)))
    · exact fun fine => absurd fine (Option.some_ne_none _)

/-! ## Dumping and parsing -/

mutual

theorem depth_reread : ∀ v : Json D, v.reread.depth = v.depth
  | .null | .bool _ | .string _ => rfl
  | .int _ => (number_depth (D := D) _).1
  | .double _ => (number_depth (D := D) _).1
  | .array values => depthOfValues_reread values
  | .object fields => depthOfFields_reread fields

theorem depthOfValues_reread : ∀ values : List (Json D),
    depthOfValues (rereadValues values) = depthOfValues values
  | [] => rfl
  | v :: values => by
      rw [rereadValues, depthOfValues, depth_reread v, depthOfValues_reread values, depthOfValues]

theorem depthOfFields_reread : ∀ fields : List (List Byte × Json D),
    depthOfFields (rereadFields fields) = depthOfFields fields
  | [] => rfl
  | (_, v) :: fields => by
      rw [rereadFields, depthOfFields, depth_reread v, depthOfFields_reread fields, depthOfFields]

end

/-- **Parsing what was dumped gives an equal value back, when it is not too deep.** -/
theorem parse_dump [LawfulDoubles D] (v : Json D) (ordered : v.Ordered) (isFinite : v.Finite) :
    (v.depth ≤ maxDepth → Json.parse v.dump = some (v.reread, none) ∧ v.equals v.reread = true) ∧
      (maxDepth < v.depth → ∃ w : Json D, Json.parse v.dump = some (w, some tooDeep)) := by
  have text (levels : Nat) (shallow : v.depth < levels) : IsText levels v.dump v.reread :=
    ⟨[], v.dump, [], by simp, rfl, rfl, dump_denotes v ordered isFinite shallow⟩
  constructor
  · exact fun shallow => ⟨parse_isText (text _ (Nat.lt_succ_of_le shallow)), v.equals_reread isFinite⟩
  · intro deep
    refine parse_isText_deep (text _ (Nat.lt_succ_self _)) ?_
    rintro ⟨_, _, _, _, _, _, is⟩
    have shallow := is.depth
    rw [depth_reread] at shallow
    omega

/-! Doubles that are integers, as far as all of these are doubles. -/

instance integers : Doubles Int where
  ofInt := BitVec.toInt
  atof := atoi
  print := signed
  eq a b := a == b
  finite n := n.natAbs < 2 ^ 53

instance lawful_integers : LawfulDoubles Int where
  eq_self n _ := beq_self_eq_true n
  eq_comm a b := BEq.comm
  finite_ofInt n := by
    have lower := n.le_toInt
    have upper := n.toInt_lt
    change n.toInt.natAbs < 2 ^ 53
    omega
  print_lexeme n _ := (signed_integral n).1.lexeme
  atof_print n _ := (signed_integral n).2
  atof_integral _ _ _ same := beq_iff_eq.mpr same

/-- `[3000000000, "\n", {}]` -/
def threeValues : Json Int := .array [.double 3000000000, .string [byte '\n'], .object []]

theorem parse_dump_three : Json.parse threeValues.dump = some (threeValues.reread, none) ∧
    threeValues.equals threeValues.reread = true :=
  (parse_dump threeValues ⟨trivial, trivial, ⟨.nil, trivial⟩, trivial⟩
    ⟨(by decide : (3000000000 : Int).natAbs < 2 ^ 53), trivial, trivial, trivial⟩).1 (by decide)

end Drunos.Json11
