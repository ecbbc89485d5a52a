/-
# Drunos.Types.IPv6Addr — IPv6 addresses

`parseIPv6` and the conversions of `IPv6Addr.cc`. A first pattern of nine alternatives decides what a
text is; all of them are eight groups, or at most seven with one `::` (`validation_iff`). Then colons
are inserted at the `::` until there are seven, and a second pattern picks the eight groups between
them, some of them empty.

Seven groups in front of the `::`, or behind it, make eight colons already. The second pattern
refuses these texts, though the comments of the first one list them; all others are read right
(`ipv6AddrRight_iff`).

`to_number` gives the lower half first, which the constructor takes as the upper one, and it casts the
whole address to 64 bits, which throws if a higher bit is set. So it is right about the address of zeros
only (`converted_iff`), and the hextets and octets are made of it.
-/
import Drunos.Types.Text

namespace Drunos.Types

open Drunos.Theory Drunos.Theory.Regex

set_option autoImplicit false

abbrev IPv6Addr := BitVec 128

/-! ## parseIPv6 -/

/-- `[[:xdigit:]]{1,4}`. No group of this pattern is asked for what it has captured. -/
def hextet : Regex Char := .rep 1 4 (.letter isXdigit)

def colon : Regex Char := .letter (· == ':')

/-- `[[:xdigit:]]{1,4}:` -/
def hextetColon : Regex Char := .seq hextet colon

/-- `:[[:xdigit:]]{1,4}` -/
def colonHextet : Regex Char := .seq colon hextet

def validation : Regex Char :=
  .alt (.seq (.rep 7 7 hextetColon) hextet) <|
  .alt (.seq (.rep 1 7 hextetColon) colon) <|
  .alt (.seq (.rep 1 6 hextetColon) colonHextet) <|
  .alt (.seq (.rep 1 5 hextetColon) (.rep 1 2 colonHextet)) <|
  .alt (.seq (.rep 1 4 hextetColon) (.rep 1 3 colonHextet)) <|
  .alt (.seq (.rep 1 3 hextetColon) (.rep 1 4 colonHextet)) <|
  .alt (.seq (.rep 1 2 hextetColon) (.rep 1 5 colonHextet)) <|
  .alt (.seq hextetColon (.rep 1 6 colonHextet)) <|
  .seq colon (.alt (.rep 1 7 colonHextet) colon)

/-- `str.insert(str.find("::"), count, ':')`. -/
def insertColons (count : Nat) : Text → Except AddressError Text
  | ':' :: ':' :: rest => .ok (List.replicate count ':' ++ ':' :: ':' :: rest)
  | c :: rest => (insertColons count rest).map (c :: ·)
  | [] => .error .outOfRange

/-- Eight groups of at most four digits between colons. -/
def ipv6Pattern : Regex Char :=
  ofItems ((numbered 0 4 isXdigit 1 8).intersperse (.mark (· == ':')))

/-- One turn of the two loops over the groups. -/
def addHextet (m : Captures Char) (res : BitVec 64) (oct : Nat) : BitVec 64 :=
  if 0 < (m.group oct).length then shiftIn 16 res (stoi 16 (m.group oct)) else res <<< 16

def parseIPv6 (text : Text) : Except AddressError (BitVec 64 × BitVec 64) :=
  match fullMatch validation text with
  | none => .error (.badRepresentation ("Bad IPv6 address: ".toList ++ text))
  | some _ => do
      let n := text.count ':'
      let str ← if n < 7 then insertColons (7 - n) text else pure text
      match fullMatch ipv6Pattern str with
      | none => .error (.badRepresentation ("Bad IPv6 address: ".toList ++ str))
      | some m => .ok ([1, 2, 3, 4].foldl (addHextet m) 0, [5, 6, 7, 8].foldl (addHextet m) 0)

/-- The constructor from a pair: the first number is the upper half. -/
def ofPair (num : BitVec 64 × BitVec 64) : IPv6Addr :=
  num.1.setWidth 128 <<< 64 ||| num.2.setWidth 128

/-- `IPv6Addr(str)`. -/
def ipv6Addr (str : Text) : Except AddressError IPv6Addr := (parseIPv6 str).map ofPair

/-! ## What the text form is -/

def Hextet (g : Text) : Prop := 1 ≤ g.length ∧ g.length ≤ 4 ∧ ∀ c ∈ g, isXdigit c = true

instance (g : Text) : Decidable (Hextet g) :=
  decidable_of_iff (1 ≤ g.length ∧ g.length ≤ 4 ∧ g.all isXdigit = true) (by simp [Hextet])

/-- Eight groups, or at most seven and one `::`. -/
inductive Written : Text → List Text → List Text → Prop
  | full {groups : List Text} (eight : groups.length = 8) (hex : ∀ g ∈ groups, Hextet g) :
      Written (join ':' groups) groups []
  | compressed {left right : List Text} (room : left.length + right.length ≤ 7)
      (hex : ∀ g ∈ left ++ right, Hextet g) :
      Written (join ':' left ++ ':' :: ':' :: join ':' right) left right

/-- The text of an address and its number, with groups of zeros for the `::`. -/
def Ipv6Text (s : Text) (n : Nat) : Prop :=
  ∃ left right, Written s left right ∧
    n = positional 65536 (left.map (stoi 16) ++ List.replicate (8 - left.length - right.length) 0 ++
      right.map (stoi 16))

/-- Seven groups and a `::` in front of them or behind. -/
def SevenGroups (s : Text) : Prop :=
  ∃ groups : List Text, groups.length = 7 ∧ (∀ g ∈ groups, Hextet g) ∧
    (s = join ':' groups ++ [':', ':'] ∨ s = ':' :: ':' :: join ':' groups)

def IPv6AddrRight (s : Text) : Prop := Accepts ipv6Addr Ipv6Text "Bad IPv6 address: ".toList s

/-! ## The validation -/

theorem denotes_hextet {s : Text} : (∃ c, Denotes hextet s c) ↔ Hextet s := by
  simp only [hextet, denotes_letters, Hextet, exists_eq_left]

theorem denotes_colon {s : Text} : (∃ c, Denotes colon s c) ↔ s = [':'] := by
  simp [colon, denotes_letter]

theorem takes_hextetColon {s : Text} :
    (∃ c, Denotes hextetColon s c) ↔ ∃ g, Hextet g ∧ s = g ++ [':'] := by
  simp only [hextetColon, takes_seq, denotes_hextet, denotes_colon]
  constructor
  · rintro ⟨g, -, hex, rfl, rfl⟩
    exact ⟨g, hex, rfl⟩
  · rintro ⟨g, hex, rfl⟩
    exact ⟨g, _, hex, rfl, rfl⟩

theorem takes_colonHextet {s : Text} :
    (∃ c, Denotes colonHextet s c) ↔ ∃ g, Hextet g ∧ s = ':' :: g := by
  simp only [colonHextet, takes_seq, denotes_hextet, denotes_colon]
  constructor
  · rintro ⟨-, g, rfl, hex, rfl⟩
    exact ⟨g, hex, rfl⟩
  · rintro ⟨g, hex, rfl⟩
    exact ⟨_, g, rfl, hex, rfl⟩

theorem parts_of_groups {f : Text → Text} : ∀ {parts : List Text},
    (∀ t ∈ parts, ∃ g, Hextet g ∧ t = f g) →
      ∃ groups : List Text, parts = groups.map f ∧ ∀ g ∈ groups, Hextet g
  | [], _ => ⟨[], by simp⟩
  | t :: parts, each => by
      obtain ⟨⟨g, hex, rfl⟩, others⟩ := List.forall_mem_cons.mp each
      obtain ⟨groups, rfl, hexes⟩ := parts_of_groups others
      exact ⟨g :: groups, rfl, List.forall_mem_cons.mpr ⟨hex, hexes⟩⟩

/-- Repeated parts of one form are the texts of so many groups. -/
theorem takes_rep {a : Regex Char} {f : Text → Text} (part : ∀ s : Text,
    (∃ c, Denotes a s c) ↔ ∃ g, Hextet g ∧ s = f g) {lo hi : Nat} {s : Text} :
    (∃ c, Denotes (.rep lo hi a) s c) ↔
      ∃ groups : List Text, lo ≤ groups.length ∧ groups.length ≤ hi ∧ (∀ g ∈ groups, Hextet g) ∧
        s = (groups.map f).flatten := by
  rw [denotes_rep]
  constructor
  · rintro ⟨parts, least, most, rfl, each⟩
    obtain ⟨groups, rfl, hex⟩ := parts_of_groups fun t mem => (part t).mp (each t mem)
    exact ⟨groups, by simpa using least, by simpa using most, hex, rfl⟩
  · rintro ⟨groups, least, most, hex, rfl⟩
    refine ⟨groups.map f, by simpa using least, by simpa using most, rfl, fun t mem => ?_⟩
    obtain ⟨g, here, rfl⟩ := List.mem_map.mp mem
    exact (part _).mpr ⟨g, hex g here, rfl⟩

/-- Groups in front of the first colon of a `::`. -/
theorem takes_left {lo hi : Nat} (some : 1 ≤ lo) {s : Text} :
    (∃ c, Denotes (.rep lo hi hextetColon) s c) ↔
      ∃ left : List Text, lo ≤ left.length ∧ left.length ≤ hi ∧ (∀ g ∈ left, Hextet g) ∧
        s = join ':' left ++ [':'] := by
  rw [takes_rep fun _ => takes_hextetColon]
  constructor
  · rintro ⟨left, least, most, hex, rfl⟩
    exact ⟨left, least, most, hex, flatten_behind ':' (List.ne_nil_of_length_pos (by omega))⟩
  · rintro ⟨left, least, most, hex, rfl⟩
    exact ⟨left, least, most, hex, (flatten_behind ':' (List.ne_nil_of_length_pos (by omega))).symm⟩

/-- Groups behind the second colon of a `::`. -/
theorem takes_right {lo hi : Nat} (some : 1 ≤ lo) {s : Text} :
    (∃ c, Denotes (.rep lo hi colonHextet) s c) ↔
      ∃ right : List Text, lo ≤ right.length ∧ right.length ≤ hi ∧ (∀ g ∈ right, Hextet g) ∧
        s = ':' :: join ':' right := by
  rw [takes_rep fun _ => takes_colonHextet]
  constructor
  · rintro ⟨right, least, most, hex, rfl⟩
    exact ⟨right, least, most, hex, flatten_before ':' (List.ne_nil_of_length_pos (by omega))⟩
  · rintro ⟨right, least, most, hex, rfl⟩
    exact ⟨right, least, most, hex, (flatten_before ':' (List.ne_nil_of_length_pos (by omega))).symm⟩

/-- At least one group, and not more than so many, on both sides of a `::`. -/
theorem takes_both {m n : Nat} {s : Text} :
    (∃ c, Denotes (.seq (.rep 1 m hextetColon) (.rep 1 n colonHextet)) s c) ↔
      ∃ left right : List Text, 1 ≤ left.length ∧ left.length ≤ m ∧ 1 ≤ right.length ∧
        right.length ≤ n ∧ (∀ g ∈ left ++ right, Hextet g) ∧
          s = join ':' left ++ ':' :: ':' :: join ':' right := by
  rw [takes_seq]
  simp only [takes_left le_rfl, takes_right le_rfl]
  constructor
  · rintro ⟨-, -, ⟨left, least, most, hex, rfl⟩, ⟨right, least', most', hex', rfl⟩, rfl⟩
    refine ⟨left, right, least, most, least', most', fun g mem => ?_, by simp⟩
    exact (List.mem_append.mp mem).elim (hex g) (hex' g)
  · rintro ⟨left, right, least, most, least', most', hex, rfl⟩
    exact ⟨_, _, ⟨left, least, most, fun g mem => hex g (List.mem_append_left _ mem), rfl⟩,
      ⟨right, least', most', fun g mem => hex g (List.mem_append_right _ mem), rfl⟩, by simp⟩

theorem Written.left_only {left : List Text} (most : left.length ≤ 7) (hex : ∀ g ∈ left, Hextet g) :
    Written (join ':' left ++ [':'] ++ [':']) left [] := by
  have written : Written (join ':' left ++ ':' :: ':' :: join ':' []) left [] :=
    .compressed (by simpa using most) (by simpa using hex)
  simpa [join] using written

theorem validation_sound {s : Text} (valid : ∃ c, Denotes validation s c) :
    ∃ left right, Written s left right := by
  have both {m n : Nat} (few : m + n ≤ 7)
      (takes : ∃ c, Denotes (.seq (.rep 1 m hextetColon) (.rep 1 n colonHextet)) s c) :
      ∃ left right, Written s left right := by
    obtain ⟨left, right, -, most, -, most', hex, rfl⟩ := takes_both.mp takes
    exact ⟨left, right, .compressed (by omega) hex⟩
  rw [validation] at valid
  rcases takes_alt.mp valid with eight | valid
  · obtain ⟨s₁, g, front, last, rfl⟩ := takes_seq.mp eight
    obtain ⟨left, least, most, hex, rfl⟩ := (takes_left (by decide)).mp front
    have hex' := denotes_hextet.mp last
    have written : Written (join ':' (left ++ [g])) (left ++ [g]) [] :=
      .full (by rw [List.length_append, List.length_singleton]; omega)
        (by simpa [or_imp, forall_and] using ⟨hex, hex'⟩)
    rw [join_append ':' (List.ne_nil_of_length_pos (by omega)) (by simp)] at written
    exact ⟨left ++ [g], [], by simpa using written⟩
  rcases takes_alt.mp valid with before | valid
  · obtain ⟨s₁, s₂, front, last, rfl⟩ := takes_seq.mp before
    obtain ⟨left, least, most, hex, rfl⟩ := (takes_left le_rfl).mp front
    obtain rfl := denotes_colon.mp last
    exact ⟨left, [], .left_only most hex⟩
  rcases takes_alt.mp valid with one | valid
  · obtain ⟨s₁, s₂, front, last, rfl⟩ := takes_seq.mp one
    obtain ⟨left, least, most, hex, rfl⟩ := (takes_left le_rfl).mp front
    obtain ⟨g, hex', rfl⟩ := takes_colonHextet.mp last
    have written : Written (join ':' left ++ ':' :: ':' :: join ':' [g]) left [g] :=
      .compressed (by rw [List.length_singleton]; omega)
        (by simpa [or_imp, forall_and] using ⟨hex, hex'⟩)
    exact ⟨left, [g], by simpa using written⟩
  rcases takes_alt.mp valid with takes | valid
  · exact both (by decide) takes
  rcases takes_alt.mp valid with takes | valid
  · exact both (by decide) takes
  rcases takes_alt.mp valid with takes | valid
  · exact both (by decide) takes
  rcases takes_alt.mp valid with takes | valid
  · exact both (by decide) takes
  rcases takes_alt.mp valid with first | behind
  · obtain ⟨s₁, s₂, front, last, rfl⟩ := takes_seq.mp first
    obtain ⟨g, hex', rfl⟩ := takes_hextetColon.mp front
    obtain ⟨right, least, most, hex, rfl⟩ := (takes_right le_rfl).mp last
    have written : Written (join ':' [g] ++ ':' :: ':' :: join ':' right) [g] right :=
      .compressed (by rw [List.length_singleton]; omega)
        (by simpa [or_imp, forall_and] using ⟨hex', hex⟩)
    exact ⟨[g], right, by simpa using written⟩
  · obtain ⟨s₁, s₂, front, last, rfl⟩ := takes_seq.mp behind
    obtain rfl := denotes_colon.mp front
    rcases takes_alt.mp last with groups | none
    · obtain ⟨right, least, most, hex, rfl⟩ := (takes_right le_rfl).mp groups
      have written : Written (join ':' [] ++ ':' :: ':' :: join ':' right) [] right :=
        .compressed (by simpa using most) (by simpa using hex)
      exact ⟨[], right, by simpa [join] using written⟩
    · obtain rfl := denotes_colon.mp none
      have written : Written (join ':' [] ++ ':' :: ':' :: join ':' []) [] [] :=
        .compressed (by simp) (by simp)
      exact ⟨[], [], by simpa [join] using written⟩

theorem validation_complete {s : Text} {left right : List Text} (written : Written s left right) :
    ∃ c, Denotes validation s c := by
  rw [validation]
  cases written with
  | full eight hex =>
      obtain ⟨front, g, rfl⟩ : ∃ front g, left = front ++ [g] :=
        ⟨left.dropLast, left.getLast (List.ne_nil_of_length_pos (by omega)),
          (List.dropLast_concat_getLast _).symm⟩
      rw [List.length_append, List.length_singleton] at eight
      have hex' : (∀ g ∈ front, Hextet g) ∧ Hextet g := by
        simpa [or_imp, forall_and] using hex
      rw [join_append ':' (List.ne_nil_of_length_pos (by omega)) (List.cons_ne_nil g [])]
      refine takes_alt.mpr (.inl (takes_seq.mpr ⟨_, g, (takes_left (by decide)).mpr
        ⟨front, by omega, by omega, hex'.1, rfl⟩, denotes_hextet.mpr hex'.2, by simp⟩))
  | compressed room hex =>
      have hexL : ∀ g ∈ left, Hextet g := fun g mem => hex g (List.mem_append_left _ mem)
      have hexR : ∀ g ∈ right, Hextet g := fun g mem => hex g (List.mem_append_right _ mem)
      have both {m n : Nat} (some : 1 ≤ left.length) (most : left.length ≤ m)
          (some' : 1 ≤ right.length) (most' : right.length ≤ n) :
          ∃ c, Denotes (.seq (.rep 1 m hextetColon) (.rep 1 n colonHextet))
            (join ':' left ++ ':' :: ':' :: join ':' right) c :=
        takes_both.mpr ⟨left, right, some, most, some', most', hex, rfl⟩
      simp only [takes_alt]
      by_cases noneL : left.length = 0
      · obtain rfl := List.length_eq_zero_iff.mp noneL
        iterate 8 right
        refine takes_seq.mpr ⟨[':'], ':' :: join ':' right, denotes_colon.mpr rfl, ?_, rfl⟩
        rw [takes_alt]
        by_cases noneR : right.length = 0
        · obtain rfl := List.length_eq_zero_iff.mp noneR
          exact .inr (denotes_colon.mpr rfl)
        · exact .inl ((takes_right le_rfl).mpr ⟨right, by omega, by omega, hexR, rfl⟩)
      · obtain none | one | two | three | four | five | six :
            right.length = 0 ∨ right.length = 1 ∨ right.length = 2 ∨ right.length = 3 ∨
              right.length = 4 ∨ right.length = 5 ∨ right.length = 6 := by omega
        · obtain rfl := List.length_eq_zero_iff.mp none
          refine .inr (.inl (takes_seq.mpr ⟨_, [':'], (takes_left le_rfl).mpr
            ⟨left, by omega, by omega, hexL, rfl⟩, denotes_colon.mpr rfl, by simp [join]⟩))
        · obtain ⟨g, rfl⟩ := List.length_eq_one_iff.mp one
          refine .inr (.inr (.inl (takes_seq.mpr ⟨_, ':' :: g, (takes_left le_rfl).mpr
            ⟨left, by omega, by omega, hexL, rfl⟩, takes_colonHextet.mpr ⟨g, hexR g (by simp), rfl⟩,
            by simp⟩)))
        · exact .inr (.inr (.inr (.inl (both (by omega) (by omega) (by omega) (by omega)))))
        · exact .inr (.inr (.inr (.inr (.inl (both (by omega) (by omega) (by omega) (by omega))))))
        · exact .inr (.inr (.inr (.inr (.inr (.inl (both (by omega) (by omega) (by omega)
            (by omega)))))))
        · exact .inr (.inr (.inr (.inr (.inr (.inr (.inl (both (by omega) (by omega) (by omega)
            (by omega))))))))
        · obtain ⟨g, rfl⟩ := List.length_eq_one_iff.mp (by omega : left.length = 1)
          refine .inr (.inr (.inr (.inr (.inr (.inr (.inr (.inl (takes_seq.mpr ⟨g ++ [':'], _,
            takes_hextetColon.mpr ⟨g, hexL g (by simp), rfl⟩, (takes_right le_rfl).mpr
              ⟨right, by omega, by omega, hexR, rfl⟩, by simp⟩))))))))

/-- All alternatives together are eight groups, or at most seven and one `::`. -/
theorem validation_iff {s : Text} :
    (∃ c, Denotes validation s c) ↔ ∃ left right, Written s left right :=
  ⟨validation_sound, fun ⟨_, _, written⟩ => validation_complete written⟩

/-! ## Inserting colons -/

theorem Hextet.no_colon {g : Text} (hex : Hextet g) : ':' ∉ g := by
  intro mem
  have digit := hex.2.2 _ mem
  exact absurd digit (by decide)

theorem insertColons_skip {count : Nat} : ∀ {g : Text} (rest : Text), ':' ∉ g →
    insertColons count (g ++ rest) = (insertColons count rest).map (g ++ ·)
  | [], rest, _ => by cases h : insertColons count rest <;> simp [Except.map, h]
  | c :: g, rest, without => by
      have ⟨other, others⟩ : ':' ≠ c ∧ ':' ∉ g := by simpa using without
      have later : insertColons count (g ++ rest) = (insertColons count rest).map (g ++ ·) :=
        insertColons_skip rest others
      rw [List.cons_append, insertColons, later]
      · cases insertColons count rest <;> rfl
      · rintro text rfl
        exact fun _ => other rfl

/-- Colons are inserted behind the groups on the left. -/
theorem insertColons_join (count : Nat) (behind : Text) : ∀ {left : List Text},
    (∀ g ∈ left, Hextet g) →
      insertColons count (join ':' left ++ ':' :: ':' :: behind) =
        .ok (join ':' left ++ (List.replicate count ':' ++ ':' :: ':' :: behind))
  | [], _ => rfl
  | [g], hex => by
      rw [join_singleton, insertColons_skip _ (hex g (by simp)).no_colon]
      rfl
  | g :: g' :: left, hex => by
      obtain ⟨first, others⟩ := List.forall_mem_cons.mp hex
      have later := insertColons_join count behind others
      -- the colon behind `g` is no `::`, as a digit follows
      obtain ⟨c, rest, next, digit⟩ : ∃ c rest,
          join ':' (g' :: left) ++ ':' :: ':' :: behind = c :: rest ∧ c ≠ ':' := by
        have second := others g' (by simp)
        obtain ⟨c, digits, rfl⟩ := List.exists_cons_of_length_pos second.1
        have other : c ≠ ':' := fun same => second.no_colon (by simp [same])
        cases left with
        | nil => exact ⟨c, _, by rw [join_singleton, List.cons_append], other⟩
        | cons g'' left => exact ⟨c, _, by rw [join_cons_cons]; rfl, other⟩
      have step : insertColons count (':' :: c :: rest) =
          (insertColons count (c :: rest)).map (':' :: ·) := by
        rw [insertColons]
        intro text _ same
        exact digit (List.cons.inj same).1
      rw [join_cons_cons, List.append_assoc, List.cons_append, insertColons_skip _ first.no_colon,
        next, step, ← next, later]
      simp [Except.map]

theorem join_replicate (sep : Char) (count : Nat) :
    join sep (List.replicate (count + 1) []) = List.replicate count sep := by
  induction count with
  | zero => rfl
  | succ count ih =>
      rw [List.replicate_succ, List.replicate_succ, join_cons_cons, ← List.replicate_succ, ih]
      rfl

/-- The eight groups, empty ones for the `::`. -/
def filled (left right : List Text) : List Text :=
  left ++ List.replicate (8 - left.length - right.length) [] ++ right

theorem count_compressed {left right : List Text} (hex : ∀ g ∈ left ++ right, Hextet g) :
    (join ':' left ++ ':' :: ':' :: join ':' right).count ':' =
      (left.length - 1) + 2 + (right.length - 1) := by
  have noneL : ∀ g ∈ left, ':' ∉ g := fun g mem => (hex g (List.mem_append_left _ mem)).no_colon
  have noneR : ∀ g ∈ right, ':' ∉ g := fun g mem => (hex g (List.mem_append_right _ mem)).no_colon
  simp only [List.count_append, List.count_cons_self, count_join noneL, count_join noneR]
  omega

theorem colons_cons (count : Nat) (rest : Text) :
    List.replicate count ':' ++ ':' :: rest = List.replicate (count + 1) ':' ++ rest := by
  rw [List.replicate_succ', List.append_assoc, List.singleton_append]

/-- With the colons that are missing, the text is that of the eight groups. -/
theorem join_filled {left right : List Text} (room : left.length + right.length ≤ 7)
    (someR : left.length ≤ 6) (someL : right.length ≤ 6) :
    join ':' left ++ (List.replicate (7 - ((left.length - 1) + 2 + (right.length - 1))) ':' ++
        ':' :: ':' :: join ':' right) = join ':' (filled left right) := by
  obtain ⟨count, missing⟩ : ∃ count, 8 - left.length - right.length = count + 1 :=
    ⟨7 - left.length - right.length, by omega⟩
  have blank := join_replicate ':' count
  have present : List.replicate (count + 1) ([] : Text) ≠ [] := List.cons_ne_nil _ _
  rw [colons_cons, colons_cons, filled, missing]
  cases left with
  | nil =>
      cases right with
      | nil =>
          obtain rfl : count = 7 := by simpa using missing.symm
          rfl
      | cons g right =>
          rw [List.nil_append, join_append ':' present (List.cons_ne_nil g right), blank, colons_cons]
          simp only [List.length_cons, List.length_nil] at missing someL ⊢
          have colons : 7 - (0 - 1 + 2 + (right.length + 1 - 1)) + 1 = count := by omega
          rw [colons]
          rfl
  | cons g left =>
      have first := List.cons_ne_nil g left
      cases right with
      | nil =>
          rw [List.append_nil, join_append ':' first present, blank, ← List.replicate_succ]
          simp only [List.length_cons, List.length_nil] at missing someR ⊢
          have colons : 7 - (left.length + 1 - 1 + 2 + (0 - 1)) + 1 = count := by omega
          rw [colons]
          simp [join]
      | cons g' right =>
          rw [List.append_assoc, join_append ':' first (by simp), join_append ':' present (by simp),
            blank, ← List.cons_append, ← List.replicate_succ, colons_cons]
          simp only [List.length_cons] at missing room ⊢
          have colons : 7 - (left.length + 1 - 1 + 2 + (right.length + 1 - 1)) = count := by omega
          rw [colons]

theorem length_filled {left right : List Text} (room : left.length + right.length ≤ 8) :
    (filled left right).length = 8 := by
  rw [filled, List.length_append, List.length_append, List.length_replicate]
  omega

/-! ## The groups -/

theorem match_groups {groups : List Text} (eight : groups.length = 8)
    (short : ∀ g ∈ groups, g.length ≤ 4 ∧ ∀ c ∈ g, isXdigit c = true) :
    ∃ m, fullMatch ipv6Pattern (join ':' groups) = some m ∧
      ∀ i < 8, m.group (i + 1) = groups.getD i [] := by
  have takes : List.Forall₂ Item.Takes (numbered 0 4 isXdigit 1 8) groups :=
    takes_numbered.mpr ⟨eight, fun g mem => ⟨Nat.zero_le _, short g mem⟩⟩
  have denotes := (denotes_separated ':').mpr ⟨groups, takes, rfl, rfl⟩
  refine ⟨_, fullMatch_of_unique denotes ?_, fun i _ => ?_⟩
  · intro c other
    obtain ⟨groups', takes', same, rfl⟩ := (denotes_separated ':').mp other
    obtain ⟨eight', short'⟩ := takes_numbered.mp takes'
    have without {groups : List Text} (short : ∀ g ∈ groups, ∀ c ∈ g, isXdigit c = true) :
        ∀ g ∈ groups, ':' ∉ g := fun g mem colon => absurd (short g mem _ colon) (by decide)
    have equal : groups = groups' :=
      join_injective (List.ne_nil_of_length_pos (by omega)) (List.ne_nil_of_length_pos (by omega))
        (without fun g mem => (short g mem).2) (without fun g mem => (short' g mem).2.2) same
    rw [equal]
  · rw [group_numbered eight, if_pos (by omega), Nat.add_sub_cancel]

theorem ipv6Pattern_colons {s : Text} {m : Captures Char} (found : fullMatch ipv6Pattern s = some m) :
    s.count ':' = 7 := by
  obtain ⟨groups, takes, rfl, -⟩ := (denotes_separated ':').mp (denotes_of_fullMatch found)
  obtain ⟨eight, short⟩ := takes_numbered.mp takes
  have without : ∀ g ∈ groups, ':' ∉ g := fun g mem colon =>
    absurd ((short g mem).2.2 _ colon) (by decide)
  have count := count_join without
  rwa [join, eight] at count

/-- An empty group shifts in a zero. -/
theorem addHextet_eq (m : Captures Char) (res : BitVec 64) (oct : Nat) :
    addHextet m res oct = shiftIn 16 res (stoi 16 (m.group oct)) := by
  rw [addHextet]
  split_ifs with some
  · rfl
  · have empty : m.group oct = [] := List.length_eq_zero_iff.mp (by omega)
    simp [empty, stoi, positional, shiftIn]

theorem ofPair_toNat (num : BitVec 64 × BitVec 64) :
    (ofPair num).toNat = num.1.toNat * 2 ^ 64 + num.2.toNat := by
  have high := num.1.isLt
  have low := num.2.isLt
  rw [ofPair, BitVec.toNat_or, BitVec.toNat_shiftLeft, BitVec.toNat_setWidth, BitVec.toNat_setWidth,
    Nat.shiftLeft_eq, Nat.mod_eq_of_lt (by omega : num.1.toNat < 2 ^ 128),
    Nat.mod_eq_of_lt (by omega : num.2.toNat < 2 ^ 128), Nat.mod_eq_of_lt (by omega),
    ← Nat.shiftLeft_eq, Nat.shiftLeft_add_eq_or_of_lt low]

/-! ## The number -/

/-- A group of at most four digits, or none. -/
def ShortHextet (g : Text) : Prop := g.length ≤ 4 ∧ ∀ c ∈ g, isXdigit c = true

theorem ShortHextet.stoi_lt {g : Text} (short : ShortHextet g) : stoi 16 g < 2 ^ 16 := by
  have below := Types.stoi_lt fun c mem => digitValue_xdigit (short.2 c mem)
  exact Nat.lt_of_lt_of_le below (Nat.pow_le_pow_right (by decide) short.1)

theorem foldl_addHextet {m : Captures Char} {octs : List Nat} (room : octs.length ≤ 4)
    (short : ∀ oct ∈ octs, ShortHextet (m.group oct)) :
    (octs.foldl (addHextet m) 0).toNat =
      positional (2 ^ 16) ((octs.map m.group).map (stoi 16)) := by
  have shifted : octs.foldl (addHextet m) 0 =
      ((octs.map m.group).map (stoi 16)).foldl (shiftIn 16) 0 := by
    rw [List.map_map, List.foldl_map]
    exact List.foldl_ext _ _ _ fun res oct _ => addHextet_eq m res oct
  rw [shifted]
  refine shiftIn_groups (by simp only [List.length_map]; omega) ?_
  simpa using fun oct mem => (short oct mem).stoi_lt

theorem ofPair_groups {m : Captures Char} {groups : List Text} (eight : groups.length = 8)
    (short : ∀ g ∈ groups, ShortHextet g) (captured : ∀ i < 8, m.group (i + 1) = groups.getD i []) :
    (ofPair ([1, 2, 3, 4].foldl (addHextet m) 0, [5, 6, 7, 8].foldl (addHextet m) 0)).toNat =
      positional (2 ^ 16) (groups.map (stoi 16)) := by
  have all : ([1, 2, 3, 4] ++ [5, 6, 7, 8]).map m.group = groups := by
    obtain ⟨g₁, g₂, g₃, g₄, g₅, g₆, g₇, g₈, rfl⟩ : ∃ g₁ g₂ g₃ g₄ g₅ g₆ g₇ g₈,
        groups = [g₁, g₂, g₃, g₄, g₅, g₆, g₇, g₈] := by
      match groups, eight with
      | [g₁, g₂, g₃, g₄, g₅, g₆, g₇, g₈], _ => exact ⟨_, _, _, _, _, _, _, _, rfl⟩
    simp [captured 0, captured 1, captured 2, captured 3, captured 4, captured 5, captured 6,
      captured 7]
  have each : ∀ oct ∈ [1, 2, 3, 4] ++ [5, 6, 7, 8], ShortHextet (m.group oct) := fun oct mem =>
    short _ (all ▸ List.mem_map_of_mem mem)
  rw [ofPair_toNat, foldl_addHextet (by decide) fun oct mem => each oct (List.mem_append_left _ mem),
    foldl_addHextet (by decide) fun oct mem => each oct (List.mem_append_right _ mem), ← all,
    List.map_append, List.map_append, positional_append, List.length_map, List.length_map,
    ← Nat.pow_mul]
  rfl

theorem filled_short {left right : List Text} (hex : ∀ g ∈ left ++ right, Hextet g) :
    ∀ g ∈ filled left right, ShortHextet g := by
  intro g mem
  rw [filled, List.append_assoc, List.mem_append, List.mem_append] at mem
  rcases mem with here | blank | here
  · exact (hex g (List.mem_append_left _ here)).2
  · obtain rfl := List.eq_of_mem_replicate blank
    exact ⟨by decide, by simp⟩
  · exact (hex g (List.mem_append_right _ here)).2

theorem map_filled (left right : List Text) :
    (filled left right).map (stoi 16) = left.map (stoi 16) ++
      List.replicate (8 - left.length - right.length) 0 ++ right.map (stoi 16) := by
  rw [filled, List.map_append, List.map_append, List.map_replicate]
  rfl

/-! ## The exact condition -/

theorem Written.hextets {s : Text} {left right : List Text} (written : Written s left right) :
    left.length + right.length ≤ 8 ∧ ∀ g ∈ left ++ right, Hextet g := by
  cases written with
  | full eight hex => exact ⟨by simp [eight], by simpa using hex⟩
  | compressed room hex => exact ⟨by omega, hex⟩

/-- The inserted colons leave the text of the eight groups. -/
theorem Written.inserted {s : Text} {left right : List Text} (written : Written s left right)
    (not : ¬SevenGroups s) :
    (if s.count ':' < 7 then insertColons (7 - s.count ':') s else pure s) =
      .ok (join ':' (filled left right)) := by
  cases written with
  | full eight hex =>
      rw [count_join fun g mem => (hex g mem).no_colon, if_neg (by omega)]
      simp [filled, eight, pure, Except.pure]
  | compressed room hex =>
      have someR : left.length ≤ 6 := by
        by_contra more
        obtain rfl : right = [] := List.length_eq_zero_iff.mp (by omega)
        exact not ⟨left, by omega, by simpa using hex, .inl rfl⟩
      have someL : right.length ≤ 6 := by
        by_contra more
        obtain rfl : left = [] := List.length_eq_zero_iff.mp (by omega)
        exact not ⟨right, by omega, by simpa using hex, .inr rfl⟩
      have text := join_filled room someR someL
      rw [← count_compressed hex] at text
      by_cases few : (join ':' left ++ ':' :: ':' :: join ':' right).count ':' < 7
      · rw [if_pos few, insertColons_join _ _ fun g mem => hex g (List.mem_append_left _ mem), text]
      · rw [if_neg few]
        rw [Nat.sub_eq_zero_of_le (Nat.not_lt.mp few), List.replicate_zero, List.nil_append] at text
        rw [text]
        rfl

theorem parseIPv6_of_inserted {s str : Text} {c : Captures Char}
    (valid : fullMatch validation s = some c)
    (inserted : (if s.count ':' < 7 then insertColons (7 - s.count ':') s else pure s) = .ok str) :
    parseIPv6 s =
      match fullMatch ipv6Pattern str with
      | none => .error (.badRepresentation ("Bad IPv6 address: ".toList ++ str))
      | some m => .ok ([1, 2, 3, 4].foldl (addHextet m) 0, [5, 6, 7, 8].foldl (addHextet m) 0) := by
  simp only [parseIPv6, valid]
  split_ifs at inserted ⊢ with few
  · rw [inserted]
    rfl
  · rw [inserted]
    rfl

/-- The number of a text that is not refused by the second pattern. -/
theorem Written.parsed {s : Text} {left right : List Text} (written : Written s left right)
    (not : ¬SevenGroups s) :
    ∃ addr, ipv6Addr s = .ok addr ∧
      addr.toNat = positional 65536 (left.map (stoi 16) ++
        List.replicate (8 - left.length - right.length) 0 ++ right.map (stoi 16)) := by
  obtain ⟨room, hex⟩ := written.hextets
  obtain ⟨c, denotes⟩ := validation_complete written
  obtain ⟨d, valid⟩ := fullMatch_isSome denotes
  obtain ⟨m, found, captured⟩ := match_groups (length_filled room) (filled_short hex)
  have value := ofPair_groups (length_filled room) (filled_short hex) captured
  rw [map_filled] at value
  refine ⟨_, ?_, value⟩
  rw [ipv6Addr, parseIPv6_of_inserted valid (written.inserted not), found]
  rfl

theorem refused_of_not_written {s : Text} (not : ∀ left right, ¬Written s left right) :
    ipv6Addr s = .error (.badRepresentation ("Bad IPv6 address: ".toList ++ s)) := by
  have invalid : fullMatch validation s = none := fullMatch_eq_none fun c denotes => by
    obtain ⟨left, right, written⟩ := validation_sound ⟨c, denotes⟩
    exact not left right written
  simp only [ipv6Addr, parseIPv6, invalid, Except.map]

theorem SevenGroups.written {s : Text} (seven : SevenGroups s) :
    ∃ left right, Written s left right ∧ s.count ':' = 8 := by
  obtain ⟨groups, length, hex, rfl | rfl⟩ := seven
  · have written : Written (join ':' groups ++ ':' :: ':' :: join ':' []) groups [] :=
      .compressed (by simp [length]) (by simpa using hex)
    refine ⟨groups, [], written, ?_⟩
    rw [List.count_append, count_join fun g mem => (hex g mem).no_colon, length]
    rfl
  · have written : Written (join ':' [] ++ ':' :: ':' :: join ':' groups) [] groups :=
      .compressed (by simp [length]) (by simpa using hex)
    refine ⟨[], groups, written, ?_⟩
    rw [List.count_cons_self, List.count_cons_self, count_join fun g mem => (hex g mem).no_colon,
      length]

/-- The second pattern has seven colons, and the text eight. -/
theorem SevenGroups.refused {s : Text} (seven : SevenGroups s) :
    ipv6Addr s = .error (.badRepresentation ("Bad IPv6 address: ".toList ++ s)) := by
  obtain ⟨left, right, written, colons⟩ := seven.written
  obtain ⟨c, denotes⟩ := validation_complete written
  obtain ⟨d, valid⟩ := fullMatch_isSome denotes
  have none : fullMatch ipv6Pattern s = none := by
    cases found : fullMatch ipv6Pattern s with
    | none => rfl
    | some m =>
        have seven := ipv6Pattern_colons found
        omega
  have whole : (if s.count ':' < 7 then insertColons (7 - s.count ':') s else pure s) = .ok s :=
    if_neg (by omega)
  rw [ipv6Addr, parseIPv6_of_inserted valid whole, none]
  rfl

/-- The number fits into an address. -/
theorem Written.number {s : Text} {left right : List Text} (written : Written s left right) :
    ∃ addr : IPv6Addr, Ipv6Text s addr.toNat := by
  obtain ⟨room, hex⟩ := written.hextets
  have digits : ∀ d ∈ (filled left right).map (stoi 16), d < 65536 := by
    simpa using fun g mem => (filled_short hex g mem).stoi_lt
  have fits := positional_lt digits
  rw [List.length_map, length_filled room, show 65536 ^ 8 = 2 ^ 128 from rfl] at fits
  refine ⟨BitVec.ofNat 128 (positional 65536 ((filled left right).map (stoi 16))), left, right,
    written, ?_⟩
  rw [BitVec.toNat_ofNat, Nat.mod_eq_of_lt fits, map_filled]

/-- A text of the grammar is refused. -/
theorem SevenGroups.not_right {s : Text} (seven : SevenGroups s) : ¬IPv6AddrRight s := by
  rintro ⟨accepts, -⟩
  obtain ⟨left, right, written, -⟩ := seven.written
  obtain ⟨addr, text⟩ := written.number
  have ok := (accepts addr).mpr text
  simp [seven.refused] at ok

/-- **The constructor is right about a text, unless it is seven groups and a `::` at one of its
ends.** -/
theorem ipv6AddrRight_iff (s : Text) : IPv6AddrRight s ↔ ¬SevenGroups s := by
  constructor
  · exact fun right seven => seven.not_right right
  · intro not
    refine ⟨fun addr => ⟨fun ok => ?_, ?_⟩, fun none => ?_⟩
    · by_cases some : ∃ left right, Written s left right
      · obtain ⟨left, right, written⟩ := some
        obtain ⟨addr', parsed, value⟩ := written.parsed not
        obtain rfl : addr' = addr := by simpa [parsed] using ok
        exact ⟨left, right, written, value⟩
      · simp [refused_of_not_written fun left right written => some ⟨left, right, written⟩] at ok
    · rintro ⟨left, right, written, value⟩
      obtain ⟨addr', parsed, value'⟩ := written.parsed not
      rw [parsed, BitVec.eq_of_toNat_eq (value'.trans value.symm)]
    · exact refused_of_not_written fun left right written => none _ ⟨left, right, written, rfl⟩

/-- A text the comments of the validation pattern list. -/
theorem ipv6Addr_sevenGroups : ¬IPv6AddrRight "1:2:3:4:5:6:7::".toList :=
  SevenGroups.not_right ⟨["1".toList, "2".toList, "3".toList, "4".toList, "5".toList, "6".toList,
    "7".toList], rfl, by decide, .inl rfl⟩

/-! ## Numbers, hextets and octets -/

/-- `std::bitset::to_ullong`; it throws where a higher bit is set. -/
def toUllong {n : Nat} (bits : BitVec n) : Option (BitVec 64) :=
  if bits.toNat < 2 ^ 64 then some (bits.setWidth 64) else none

/-- The exception leaves a function that is `noexcept`, and the program is terminated. -/
def toNumber (addr : IPv6Addr) : Option (BitVec 64 × BitVec 64) := do
  let one ← toUllong addr
  let two ← toUllong (addr >>> 64)
  return (one, two)

def toHextets (addr : IPv6Addr) : Option (List (BitVec 16)) := do
  let (one, two) ← toNumber addr
  return [cut 16 one 0xffff000000000000 48, cut 16 one 0xffff00000000 32, cut 16 one 0xffff0000 16,
    cut 16 one 0xffff 0,
    cut 16 two 0xffff000000000000 48, cut 16 two 0xffff00000000 32, cut 16 two 0xffff0000 16,
    cut 16 two 0xffff 0]

/-- The first shift of each half is by 54. -/
def toOctets (addr : IPv6Addr) : Option (List (BitVec 8)) := do
  let (one, two) ← toNumber addr
  return [cut 8 one 0xff00000000000000 54, cut 8 one 0xff000000000000 48, cut 8 one 0xff0000000000 40,
    cut 8 one 0xff00000000 32, cut 8 one 0xff000000 24, cut 8 one 0xff0000 16, cut 8 one 0xff00 8,
    cut 8 one 0xff 0,
    cut 8 two 0xff00000000000000 54, cut 8 two 0xff000000000000 48, cut 8 two 0xff0000000000 40,
    cut 8 two 0xff00000000 32, cut 8 two 0xff000000 24, cut 8 two 0xff0000 16, cut 8 two 0xff00 8,
    cut 8 two 0xff 0]

/-- `operator<<`: the hextets with `%x` between colons. -/
def printIPv6Addr (addr : IPv6Addr) : Option Text :=
  (toHextets addr).map fun data => join ':' (data.map fun h => hex h.toNat)

/-- The functions return, and each gives the address in its form. -/
structure Converted (addr : IPv6Addr) : Prop where
  number : ∃ num, toNumber addr = some num ∧ ofPair num = addr
  hextets : ∃ data, toHextets addr = some data ∧ data.length = 8 ∧
    positional 65536 (data.map BitVec.toNat) = addr.toNat
  octets : ∃ bytes, toOctets addr = some bytes ∧ bytes.length = 16 ∧
    positional 256 (bytes.map BitVec.toNat) = addr.toNat
  printed : ∃ text, printIPv6Addr addr = some text ∧ ipv6Addr text = .ok addr

/-- The lower half comes first, and the upper one is always zero. -/
theorem toNumber_eq (addr : IPv6Addr) :
    toNumber addr = if addr.toNat < 2 ^ 64 then some (addr.setWidth 64, 0) else none := by
  have upper : (addr >>> 64).toNat = addr.toNat / 2 ^ 64 := by
    rw [BitVec.toNat_ushiftRight, Nat.shiftRight_eq_div_pow]
  have bound := addr.isLt
  simp only [toNumber, toUllong, upper]
  split_ifs with small
  · have zero : (addr >>> 64).setWidth 64 = 0 := by
      apply BitVec.eq_of_toNat_eq
      rw [BitVec.toNat_setWidth, upper, Nat.div_eq_of_lt small]
      rfl
    rw [zero]
    rfl
  · omega
  · rfl
  · rfl

theorem hex_hextet (h : BitVec 16) : Hextet (hex h.toNat) :=
  ⟨Nat.length_toDigits_pos, (Nat.length_toDigits_le_iff (by decide) (by decide)).mpr h.isLt,
    (hex_digits h.toNat).1⟩

/-- Eight hextets with `%x` between colons are parsed as the address they are the digits of. -/
theorem ipv6Addr_hextets {data : List (BitVec 16)} (eight : data.length = 8) {addr : IPv6Addr}
    (value : positional 65536 (data.map BitVec.toNat) = addr.toNat) :
    ipv6Addr (join ':' (data.map fun h => hex h.toNat)) = .ok addr := by
  have hextets : ∀ g ∈ data.map fun h => hex h.toNat, Hextet g := by
    simpa using fun h _ => hex_hextet h
  have written := Written.full (by rw [List.length_map, eight]) hextets
  have not : ¬SevenGroups (join ':' (data.map fun h => hex h.toNat)) := by
    intro seven
    obtain ⟨-, -, -, colons⟩ := seven.written
    rw [count_join fun g mem => (hextets g mem).no_colon, List.length_map, eight] at colons
    omega
  obtain ⟨addr', parsed, value'⟩ := written.parsed not
  have digits : (data.map fun h => hex h.toNat).map (stoi 16) = data.map BitVec.toNat := by
    rw [List.map_map]
    exact List.map_congr_left fun h _ => (hex_digits h.toNat).2
  have same : addr'.toNat = addr.toNat := by
    simpa [digits, eight, value] using value'
  rw [parsed, BitVec.eq_of_toNat_eq same]

/-- **The conversions return and agree with each other for the address of zeros only.** -/
theorem converted_iff (addr : IPv6Addr) : Converted addr ↔ addr = 0 := by
  constructor
  · rintro ⟨⟨num, returned, same⟩, -, -, -⟩
    rw [toNumber_eq] at returned
    split_ifs at returned with small
    obtain rfl := Option.some.inj returned
    have value := congrArg BitVec.toNat same
    rw [ofPair_toNat, BitVec.toNat_setWidth, Nat.mod_eq_of_lt small] at value
    have none : addr.toNat = 0 := by
      have zero : (0 : BitVec 64).toNat = 0 := rfl
      omega
    exact BitVec.eq_of_toNat_eq none
  · rintro rfl
    exact ⟨⟨_, rfl, by decide⟩, ⟨_, rfl, rfl, by decide⟩, ⟨_, rfl, rfl, by decide⟩,
      ⟨_, rfl, ipv6Addr_hextets rfl (by decide)⟩⟩

/-- The address ::1. -/
theorem not_converted_one : ¬Converted 1 := by
  rintro ⟨⟨num, returned, same⟩, -, -, -⟩
  obtain rfl : num = (1, 0) := by
    rw [toNumber_eq] at returned
    exact (Option.some.inj returned).symm
  exact absurd same (by decide)

end Drunos.Types
