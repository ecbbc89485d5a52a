/-
# Drunos.Json11.Grammar — JSON texts and what they denote

The grammar that the parser is held to. A value is made of values that are a level deeper
(`Value`), so a text denotes a value with a number of levels (`Denotes`), which may always
be more (`Denotes.mono`). Values in arrays and fields of objects are listed alike
(`Listed`).

What a text denotes is no deeper than its levels (`Denotes.depth`) and in order
(`Denotes.ordered`). A value's own text denotes what is read of it (`dump_denotes`).
-/
import Drunos.Json11.Values

namespace Drunos.Json11

open Drunos.Theory

set_option autoImplicit false

def isBlank (ch : Byte) : Bool := ch == byte ' ' || ch == byte '\r' || ch == byte '\n' || ch == byte '\t'

/-- A value may start so. -/
def isStart (ch : Byte) : Bool := !isBlank ch && ch != byte ']'

/-- Whitespace. -/
def Blank (t : List Byte) : Prop := t.all isBlank = true

/-- Items between commas. -/
inductive Listed {α : Type} (item : List Byte → α → Prop) : List Byte → List α → Prop
  | last {t ws : List Byte} {v : α} (is : item t v) (blank : Blank ws) : Listed item (t ++ ws) [v]
  | cons {t ws ws' rest : List Byte} {v : α} {vs : List α} (is : item t v) (blank : Blank ws)
      (blank' : Blank ws') (more : Listed item rest vs) :
      Listed item (t ++ ws ++ byte ',' :: ws' ++ rest) (v :: vs)

section

variable {D : Type}

/-- A key with its value. -/
inductive Field (value : List Byte → Json D → Prop) : List Byte → List Byte × Json D → Prop
  | mk {key ws ws' t : List Byte} {pieces : List Piece} {v : Json D} (isKey : Pieces key pieces)
      (blank : Blank ws) (blank' : Blank ws') (is : value t v) :
      Field value (quote :: key ++ quote :: ws ++ byte ':' :: ws' ++ t) (decode pieces, v)

/-- The text of a value, in which are values with texts as they are below. -/
inductive Value [Doubles D] (below : List Byte → Json D → Prop) : List Byte → Json D → Prop
  | null : Value below (text "null") .null
  | bool (value : Bool) : Value below (if value then text "true" else text "false") (.bool value)
  | number {t : List Byte} (lexeme : Lexeme t) : Value below t (number t)
  | string {t : List Byte} {pieces : List Piece} (read : Pieces t pieces) :
      Value below (quote :: t ++ [quote]) (.string (decode pieces))
  | noValues {ws : List Byte} (blank : Blank ws) : Value below (byte '[' :: ws ++ [byte ']']) (.array [])
  | values {ws t : List Byte} {values : List (Json D)} (blank : Blank ws) (items : Listed below t values) :
      Value below (byte '[' :: ws ++ t ++ [byte ']']) (.array values)
  | noFields {ws : List Byte} (blank : Blank ws) :
      Value below (byte '\x7b' :: ws ++ [byte '\x7d']) (.object [])
  | fields {ws t : List Byte} {fields : List (List Byte × Json D)} (blank : Blank ws)
      (items : Listed (Field below) t fields) :
      Value below (byte '\x7b' :: ws ++ t ++ [byte '\x7d']) (.object (SortedMap.ofList fields))

/-- The text denotes the value, in so many levels. -/
def Denotes [Doubles D] : Nat → List Byte → Json D → Prop
  | 0 => fun _ _ => False
  | levels + 1 => Value (Denotes levels)

end

/-! ## Levels -/

theorem Listed.mono {α : Type} {item item' : List Byte → α → Prop} {t : List Byte} {vs : List α}
    (listed : Listed item t vs) (more : ∀ t v, item t v → item' t v) : Listed item' t vs := by
  induction listed with
  | last is blank => exact .last (more _ _ is) blank
  | cons is blank blank' _ ih => exact .cons (more _ _ is) blank blank' ih

theorem Listed.forall {α : Type} {item : List Byte → α → Prop} {P : α → Prop} {t : List Byte} {vs : List α}
    (listed : Listed item t vs) (all : ∀ t v, item t v → P v) : ∀ v ∈ vs, P v := by
  induction listed with
  | last is => exact List.forall_mem_singleton.mpr (all _ _ is)
  | cons is _ _ _ ih => exact List.forall_mem_cons.mpr ⟨all _ _ is, ih⟩

section

variable {D : Type}

theorem Field.mono {value value' : List Byte → Json D → Prop} {t : List Byte} {field : List Byte × Json D}
    (is : Field value t field) (more : ∀ t v, value t v → value' t v) : Field value' t field := by
  cases is with
  | mk isKey blank blank' is => exact .mk isKey blank blank' (more _ _ is)

theorem depthOfValues_le {n : Nat} {values : List (Json D)} :
    depthOfValues values ≤ n ↔ ∀ v ∈ values, v.depth < n := by
  induction values with
  | nil => simp [depthOfValues]
  | cons v values ih => simp [depthOfValues, ih, Nat.succ_le_iff]

theorem depthOfFields_le {n : Nat} {fields : List (List Byte × Json D)} :
    depthOfFields fields ≤ n ↔ ∀ field ∈ fields, field.2.depth < n := by
  induction fields with
  | nil => simp [depthOfFields]
  | cons field fields ih => simp [depthOfFields, ih, Nat.succ_le_iff]

theorem orderedValues_iff {values : List (Json D)} : OrderedValues values ↔ ∀ v ∈ values, v.Ordered := by
  induction values with
  | nil => simp [OrderedValues]
  | cons v values ih => simp [OrderedValues, ih]

theorem orderedFields_iff {fields : List (List Byte × Json D)} :
    OrderedFields fields ↔ ∀ field ∈ fields, field.2.Ordered := by
  induction fields with
  | nil => simp [OrderedFields]
  | cons field fields ih => simp [OrderedFields, ih]

variable [Doubles D]

theorem Value.mono {below below' : List Byte → Json D → Prop} {t : List Byte} {v : Json D}
    (is : Value below t v) (more : ∀ t v, below t v → below' t v) : Value below' t v := by
  cases is with
  | null => exact .null
  | bool value => exact .bool value
  | number lexeme => exact .number lexeme
  | string read => exact .string read
  | noValues blank => exact .noValues blank
  | values blank items => exact .values blank (items.mono more)
  | noFields blank => exact .noFields blank
  | fields blank items => exact .fields blank (items.mono fun _ _ is => is.mono more)

theorem Denotes.succ : ∀ {levels : Nat} {t : List Byte} {v : Json D}, Denotes levels t v →
    Denotes (levels + 1) t v
  | 0, _, _, is => is.elim
  | _ + 1, _, _, is => Value.mono is fun _ _ => Denotes.succ

/-- There may be more levels. -/
theorem Denotes.mono {levels more : Nat} {t : List Byte} {v : Json D} (is : Denotes levels t v)
    (le : levels ≤ more) : Denotes more t v := by
  induction le with
  | refl => exact is
  | step _ ih => exact ih.succ

/-- A number is neither deep nor out of order. -/
theorem number_depth (t : List Byte) : (number t : Json D).depth = 0 ∧ (number t : Json D).Ordered := by
  rw [number]
  split
  · exact ⟨rfl, trivial⟩
  · exact ⟨rfl, trivial⟩

/-- No value is deeper than its text. -/
theorem Denotes.depth : ∀ {levels : Nat} {t : List Byte} {v : Json D}, Denotes levels t v → v.depth < levels
  | 0, _, _, is => is.elim
  | levels + 1, t, _, is => by
      cases is with
      | number =>
          rw [(number_depth t).1]
          exact Nat.succ_pos _
      | values blank items =>
          exact Nat.lt_succ_of_le (depthOfValues_le.mpr (items.forall fun _ _ => Denotes.depth))
      | fields blank items =>
          refine Nat.lt_succ_of_le (depthOfFields_le.mpr fun field mem => ?_)
          refine items.forall (P := fun field => field.2.depth < levels) ?_ field (SortedMap.ofList_mem mem)
          rintro _ _ ⟨-, -, -, is⟩
          exact is.depth
      | _ => exact Nat.succ_pos _

/-- The fields of the objects are in order. -/
theorem Denotes.ordered : ∀ {levels : Nat} {t : List Byte} {v : Json D}, Denotes levels t v → v.Ordered
  | 0, _, _, is => is.elim
  | levels + 1, t, _, is => by
      cases is with
      | number => exact (number_depth _).2
      | values blank items => exact orderedValues_iff.mpr (items.forall fun _ _ => Denotes.ordered)
      | fields blank items =>
          refine ⟨SortedMap.ofList_rising _, orderedFields_iff.mpr fun field mem => ?_⟩
          refine items.forall (P := fun field => field.2.Ordered) ?_ field (SortedMap.ofList_mem mem)
          rintro _ _ ⟨-, -, -, is⟩
          exact is.ordered
      | noFields => exact ⟨.nil, trivial⟩
      | _ => trivial

/-! ## Where a value starts -/

/-- What is listed starts with an item. -/
theorem Listed.head {α : Type} {item : List Byte → α → Prop} {P : Byte → Prop} {t : List Byte} {vs : List α}
    (listed : Listed item t vs) (head : ∀ t v, item t v → ∃ ch rest, t = ch :: rest ∧ P ch) :
    ∃ ch rest, t = ch :: rest ∧ P ch := by
  cases listed with
  | last is =>
      obtain ⟨ch, rest, rfl, first⟩ := head _ _ is
      exact ⟨ch, _, rfl, first⟩
  | cons is =>
      obtain ⟨ch, rest, rfl, first⟩ := head _ _ is
      exact ⟨ch, _, rfl, first⟩

theorem isStart_digit {ch : Byte} (digit : ch = byte '-' ∨ isDigit ch = true) : isStart ch = true := by
  by_contra other
  rw [Bool.not_eq_true, isStart, isBlank] at other
  simp only [Bool.and_eq_false_iff, Bool.not_eq_false', Bool.or_eq_true, beq_iff_eq, bne_eq_false_iff_eq] at other
  rcases other with (((rfl | rfl) | rfl) | rfl) | rfl <;> exact absurd digit (by decide)

/-- A number starts with a digit or its sign. -/
theorem Lexeme.head {t : List Byte} (lexeme : Lexeme t) : ∃ ch rest, t = ch :: rest ∧
    (ch = byte '-' ∨ isDigit ch = true) := by
  cases lexeme with
  | @mk int fraction exponent isInt _ _ =>
      cases isInt with
      | nonneg isInt =>
          obtain ⟨ch, rest, rfl, digit⟩ := isInt.head
          exact ⟨ch, rest ++ fraction ++ exponent, by simp, .inr digit⟩
      | @neg digits _ => exact ⟨byte '-', digits ++ fraction ++ exponent, by simp, .inl rfl⟩

theorem Value.head {below : List Byte → Json D → Prop} {t : List Byte} {v : Json D} (is : Value below t v) :
    ∃ ch rest, t = ch :: rest ∧ isStart ch = true := by
  cases is with
  | number lexeme =>
      obtain ⟨ch, rest, same, first⟩ := lexeme.head
      exact ⟨ch, rest, same, isStart_digit first⟩
  | bool value => cases value <;> exact ⟨_, _, rfl, by decide⟩
  | _ => exact ⟨_, _, rfl, by decide⟩

theorem Denotes.head : ∀ {levels : Nat} {t : List Byte} {v : Json D}, Denotes levels t v →
    ∃ ch rest, t = ch :: rest ∧ isStart ch = true
  | 0, _, _, is => is.elim
  | _ + 1, _, _, is => Value.head is

/-! ## Values that are dumped -/

theorem dumpString_value {below : List Byte → Json D → Prop} (s : List Byte) :
    Value below (dumpString s) (.string s) := by
  obtain ⟨pieces, read, stands⟩ := dumpChars_pieces 0 s
  obtain rfl : decode pieces = s := stands
  exact .string read

omit [Doubles D] in
theorem dump_field {value : List Byte → Json D → Prop} (key : List Byte) {t : List Byte} {v : Json D}
    (is : value t v) : Field value (dumpString key ++ text ": " ++ t) (key, v) := by
  obtain ⟨pieces, read, stands⟩ := dumpChars_pieces 0 key
  obtain rfl : decode pieces = key := stands
  have field := Field.mk read (rfl : Blank []) (rfl : Blank [byte ' ']) is
  simpa [dumpString, text] using field

/-- Fields in order give the object back. -/
theorem ofList_reread {fields : List (List Byte × Json D)} (rising : SortedMap.Rising fields) :
    SortedMap.ofList (rereadFields fields) = rereadFields fields := by
  have same : ∀ fields : List (List Byte × Json D),
      rereadFields fields = fields.map fun field => (field.1, field.2.reread) := by
    intro fields
    induction fields with
    | nil => rfl
    | cons field fields ih => rw [rereadFields, ih, List.map_cons]
  refine SortedMap.ofList_of_rising ?_
  rw [same]
  exact List.pairwise_map.mpr rising

mutual

/-- **The text of a value denotes what is read of it.** -/
theorem dump_denotes [LawfulDoubles D] : ∀ {levels : Nat} (v : Json D), v.Ordered → v.Finite → v.depth < levels →
    Denotes levels v.dump v.reread
  | 0, _, _, _, deep => absurd deep (Nat.not_lt_zero _)
  | _ + 1, .null, _, _, _ => .null
  | _ + 1, .bool value, _, _, _ => .bool value
  | _ + 1, .int value, _, _, _ => .number (signed_integral value.toInt).1.lexeme
  | _ + 1, .double value, _, isFinite, _ => .number (LawfulDoubles.print_lexeme value isFinite)
  | _ + 1, .string value, _, _, _ => dumpString_value value
  | levels + 1, .array values, ordered, isFinite, deep => by
      by_cases empty : values = []
      · subst empty
        exact .noValues (rfl : Blank [])
      · exact .values (rfl : Blank [])
          (dumpValues_listed values empty ordered isFinite (Nat.le_of_lt_succ deep))
  | levels + 1, .object fields, ordered, isFinite, deep => by
      by_cases empty : fields = []
      · subst empty
        exact .noFields (rfl : Blank [])
      · rw [Json.reread, ← ofList_reread ordered.1]
        exact .fields (rfl : Blank [])
          (dumpFields_listed fields empty ordered.2 isFinite (Nat.le_of_lt_succ deep))

theorem dumpValues_listed [LawfulDoubles D] : ∀ {levels : Nat} (values : List (Json D)), values ≠ [] →
    OrderedValues values → FiniteValues values → depthOfValues values ≤ levels →
      Listed (Denotes levels) (dumpValues true values) (rereadValues values)
  | _, [], filled, _, _, _ => absurd rfl filled
  | _, v :: values, _, ordered, isFinite, deep => by
      obtain ⟨here, later⟩ := max_le_iff.mp deep
      have is := dump_denotes v ordered.1 isFinite.1 here
      cases values with
      | nil => exact .last is rfl
      | cons w values =>
          have more := dumpValues_listed (w :: values) (by simp) ordered.2 isFinite.2 later
          have listed := Listed.cons is (rfl : Blank []) (rfl : Blank [byte ' ']) more
          simpa [dumpValues, rereadValues, text] using listed

theorem dumpFields_listed [LawfulDoubles D] : ∀ {levels : Nat} (fields : List (List Byte × Json D)), fields ≠ [] →
    OrderedFields fields → FiniteFields fields → depthOfFields fields ≤ levels →
      Listed (Field (Denotes levels)) (dumpFields true fields) (rereadFields fields)
  | _, [], filled, _, _, _ => absurd rfl filled
  | _, (key, v) :: fields, _, ordered, isFinite, deep => by
      obtain ⟨here, later⟩ := max_le_iff.mp deep
      have is := dump_field key (dump_denotes v ordered.1 isFinite.1 here)
      cases fields with
      | nil => exact .last is rfl
      | cons w fields =>
          have more := dumpFields_listed (w :: fields) (by simp) ordered.2 isFinite.2 later
          have listed := Listed.cons is (rfl : Blank []) (rfl : Blank [byte ' ']) more
          simpa [dumpFields, rereadFields, text] using listed

end

end

end Drunos.Json11
