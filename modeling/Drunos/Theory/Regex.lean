/-
# Drunos.Theory.Regex — regular expressions with capture groups

Expressions without anchors or references back, over any alphabet, with bounded repetition. `parses`
lists what an expression may take from the front of a text, with the groups captured on the way, in the
order in which a backtracking matcher tries them: the left alternative first, as many repetitions as
possible first. `fullMatch` is the first parse that takes the whole text.

`Denotes` says what an expression may take, without an order. Parses are the texts denoted
(`mem_parses`), so a match denotes the text (`denotes_of_fullMatch`), and there is one if the text is
denoted at all (`fullMatch_isSome`). Where the groups are determined by the text, the match is the one
denoted (`fullMatch_of_unique`).
-/
import Mathlib.Data.List.Basic
import Mathlib.Tactic.SplitIfs

namespace Drunos.Theory

set_option autoImplicit false

/-- Captured groups, the last one first. -/
abbrev Captures (α : Type) := List (Nat × List α)

/-- What a group has captured; nothing where it took no part. -/
def Captures.group {α : Type} (c : Captures α) (i : Nat) : List α := (c.lookup i).getD []

inductive Regex (α : Type) where
  | empty
  /-- One letter of a class. -/
  | letter (p : α → Bool)
  | seq (a b : Regex α)
  | alt (a b : Regex α)
  /-- So many times, as often as possible. The repeated expression never takes the empty text. -/
  | rep (lo hi : Nat) (a : Regex α)
  | group (i : Nat) (a : Regex α)

namespace Regex

variable {α : Type}

/-- A parser of this kind, applied at least `lo` and at most `hi` times. -/
def repeatParses (p : List α → List (Captures α × List α)) : Nat → Nat → List α →
    List (Captures α × List α)
  | lo, 0, s => if lo = 0 then [([], s)] else []
  | lo, hi + 1, s =>
      ((p s).flatMap fun first =>
          (repeatParses p (lo - 1) hi first.2).map fun more => (more.1 ++ first.1, more.2)) ++
        if lo = 0 then [([], s)] else []

/-- What may be taken from the front of a text, in the order in which it is tried. -/
def parses : Regex α → List α → List (Captures α × List α)
  | empty, s => [([], s)]
  | letter p, x :: rest => if p x then [([], rest)] else []
  | letter _, [] => []
  | seq a b, s =>
      (parses a s).flatMap fun first =>
        (parses b first.2).map fun more => (more.1 ++ first.1, more.2)
  | alt a b, s => parses a s ++ parses b s
  | rep lo hi a, s => repeatParses (parses a) lo hi s
  | group i a, s =>
      (parses a s).map fun inner =>
        ((i, s.take (s.length - inner.2.length)) :: inner.1, inner.2)

/-- The first parse of the whole text. -/
def fullMatch (r : Regex α) (s : List α) : Option (Captures α) :=
  ((parses r s).find? fun parse => parse.2.isEmpty).map Prod.fst

/-- The expression may take this text and capture these groups. -/
inductive Denotes : Regex α → List α → Captures α → Prop
  | empty : Denotes empty [] []
  | letter {p : α → Bool} {x : α} (is : p x = true) : Denotes (letter p) [x] []
  | seq {a b : Regex α} {s t : List α} {c d : Captures α} (first : Denotes a s c)
      (second : Denotes b t d) : Denotes (seq a b) (s ++ t) (d ++ c)
  | left {a b : Regex α} {s : List α} {c : Captures α} (one : Denotes a s c) : Denotes (alt a b) s c
  | right {a b : Regex α} {s : List α} {c : Captures α} (one : Denotes b s c) : Denotes (alt a b) s c
  | done {hi : Nat} {a : Regex α} : Denotes (rep 0 hi a) [] []
  | more {lo hi : Nat} {a : Regex α} {s t : List α} {c d : Captures α} (first : Denotes a s c)
      (rest : Denotes (rep (lo - 1) hi a) t d) : Denotes (rep lo (hi + 1) a) (s ++ t) (d ++ c)
  | group {i : Nat} {a : Regex α} {s : List α} {c : Captures α} (inner : Denotes a s c) :
      Denotes (group i a) s ((i, s) :: c)

/-! ## Parses are what is denoted -/

/-- The parser takes what the expression denotes. -/
def Sound (p : List α → List (Captures α × List α)) (r : Regex α) : Prop :=
  ∀ s c rest, (c, rest) ∈ p s ↔ ∃ taken, s = taken ++ rest ∧ Denotes r taken c

theorem repeatParses_sound {p : List α → List (Captures α × List α)} {a : Regex α} (sound : Sound p a) :
    ∀ hi lo, Sound (repeatParses p lo hi) (rep lo hi a) := by
  intro hi
  induction hi with
  | zero =>
      intro lo s c rest
      constructor
      · intro mem
        cases lo with
        | zero =>
            obtain ⟨rfl, rfl⟩ : c = [] ∧ rest = s := by simpa [repeatParses] using mem
            exact ⟨[], rfl, .done⟩
        | succ lo => simp [repeatParses] at mem
      · rintro ⟨taken, rfl, denotes⟩
        cases denotes
        simp [repeatParses]
  | succ hi ih =>
      intro lo s c rest
      rw [repeatParses, List.mem_append]
      constructor
      · rintro (mem | mem)
        · obtain ⟨⟨c', rest'⟩, first, mem⟩ := List.mem_flatMap.mp mem
          obtain ⟨⟨d, rest''⟩, second, same⟩ := List.mem_map.mp mem
          obtain ⟨rfl, rfl⟩ := Prod.mk.inj same
          obtain ⟨taken, rfl, one⟩ := (sound _ _ _).mp first
          obtain ⟨taken', rfl, others⟩ := (ih _ _ _ _).mp second
          exact ⟨taken ++ taken', by simp, .more one others⟩
        · cases lo with
          | zero =>
              obtain ⟨rfl, rfl⟩ : c = [] ∧ rest = s := by simpa using mem
              exact ⟨[], rfl, .done⟩
          | succ lo => simp at mem
      · rintro ⟨taken, rfl, denotes⟩
        cases denotes with
        | done => exact .inr (by simp)
        | more first others =>
            refine .inl (List.mem_flatMap.mpr ⟨_, (sound _ _ _).mpr ⟨_, List.append_assoc _ _ _, first⟩, ?_⟩)
            exact List.mem_map.mpr ⟨_, (ih _ _ _ _).mpr ⟨_, rfl, others⟩, rfl⟩

theorem mem_parses : ∀ r : Regex α, Sound (parses r) r
  | empty => by
      intro s c rest
      constructor
      · intro mem
        obtain ⟨rfl, rfl⟩ : c = [] ∧ rest = s := by simpa [parses] using mem
        exact ⟨[], rfl, .empty⟩
      · rintro ⟨taken, rfl, ⟨⟩⟩
        simp [parses]
  | letter p => by
      intro s c rest
      constructor
      · intro mem
        cases s with
        | nil => simp [parses] at mem
        | cons x s =>
            by_cases is : p x = true
            · obtain ⟨rfl, rfl⟩ : c = [] ∧ rest = s := by simpa [parses, is] using mem
              exact ⟨[x], rfl, .letter is⟩
            · simp [parses, is] at mem
      · rintro ⟨taken, rfl, denotes⟩
        cases denotes with
        | letter is => simp [parses, is]
  | seq a b => by
      intro s c rest
      rw [parses]
      constructor
      · intro mem
        obtain ⟨⟨c', rest'⟩, first, mem⟩ := List.mem_flatMap.mp mem
        obtain ⟨⟨d, rest''⟩, second, same⟩ := List.mem_map.mp mem
        obtain ⟨rfl, rfl⟩ := Prod.mk.inj same
        obtain ⟨taken, rfl, one⟩ := (mem_parses a _ _ _).mp first
        obtain ⟨taken', rfl, other⟩ := (mem_parses b _ _ _).mp second
        exact ⟨taken ++ taken', by simp, .seq one other⟩
      · rintro ⟨taken, rfl, denotes⟩
        cases denotes with
        | seq first second =>
            refine List.mem_flatMap.mpr ⟨_, (mem_parses a _ _ _).mpr ⟨_, List.append_assoc _ _ _, first⟩, ?_⟩
            exact List.mem_map.mpr ⟨_, (mem_parses b _ _ _).mpr ⟨_, rfl, second⟩, rfl⟩
  | alt a b => by
      intro s c rest
      rw [parses, List.mem_append, mem_parses a, mem_parses b]
      constructor
      · rintro (⟨taken, rfl, one⟩ | ⟨taken, rfl, one⟩)
        · exact ⟨taken, rfl, .left one⟩
        · exact ⟨taken, rfl, .right one⟩
      · rintro ⟨taken, rfl, one | one⟩
        · rename_i one
          exact .inl ⟨taken, rfl, one⟩
        · rename_i one
          exact .inr ⟨taken, rfl, one⟩
  | rep lo hi a => repeatParses_sound (mem_parses a) hi lo
  | group i a => by
      intro s c rest
      rw [parses, List.mem_map]
      constructor
      · rintro ⟨⟨d, rest'⟩, mem, same⟩
        obtain ⟨rfl, rfl⟩ := Prod.mk.inj same
        obtain ⟨taken, rfl, inner⟩ := (mem_parses a _ _ _).mp mem
        exact ⟨taken, rfl, by simpa using Denotes.group inner⟩
      · rintro ⟨taken, rfl, denotes⟩
        cases denotes with
        | group inner => exact ⟨_, (mem_parses a _ _ _).mpr ⟨_, rfl, inner⟩, by simp⟩

/-! ## Matches of a whole text -/

theorem denotes_of_fullMatch {r : Regex α} {s : List α} {c : Captures α}
    (found : fullMatch r s = some c) : Denotes r s c := by
  obtain ⟨⟨d, rest⟩, first, rfl⟩ := Option.map_eq_some_iff.mp found
  obtain rfl : rest = [] := by simpa using List.find?_some first
  obtain ⟨taken, rfl, denotes⟩ := (mem_parses r _ _ _).mp (List.mem_of_find?_eq_some first)
  simpa using denotes

theorem fullMatch_isSome {r : Regex α} {s : List α} {c : Captures α} (denotes : Denotes r s c) :
    ∃ d, fullMatch r s = some d := by
  have mem : (c, []) ∈ parses r s := (mem_parses r _ _ _).mpr ⟨s, by simp, denotes⟩
  have some : ((parses r s).find? fun parse => parse.2.isEmpty).isSome = true :=
    List.find?_isSome.mpr ⟨_, mem, rfl⟩
  obtain ⟨parse, found⟩ := Option.isSome_iff_exists.mp some
  exact ⟨parse.1, by rw [fullMatch, found]; rfl⟩

theorem fullMatch_eq_none {r : Regex α} {s : List α} (not : ∀ c, ¬Denotes r s c) :
    fullMatch r s = none := by
  cases found : fullMatch r s with
  | none => rfl
  | some c => exact (not c (denotes_of_fullMatch found)).elim

/-- Where one capture is possible only, it is found. -/
theorem fullMatch_of_unique {r : Regex α} {s : List α} {c : Captures α} (denotes : Denotes r s c)
    (unique : ∀ d, Denotes r s d → d = c) : fullMatch r s = some c := by
  obtain ⟨d, found⟩ := fullMatch_isSome denotes
  rw [found, unique d (denotes_of_fullMatch found)]

/-! ## What is denoted, form by form -/

theorem denotes_empty {s : List α} {c : Captures α} :
    Denotes (empty : Regex α) s c ↔ s = [] ∧ c = [] := by
  constructor
  · rintro ⟨⟩
    exact ⟨rfl, rfl⟩
  · rintro ⟨rfl, rfl⟩
    exact .empty

theorem denotes_letter {p : α → Bool} {s : List α} {c : Captures α} :
    Denotes (letter p) s c ↔ ∃ x, p x = true ∧ s = [x] ∧ c = [] := by
  constructor
  · intro denotes
    cases denotes with
    | letter is => exact ⟨_, is, rfl, rfl⟩
  · rintro ⟨x, is, rfl, rfl⟩
    exact .letter is

theorem denotes_seq {a b : Regex α} {s : List α} {c : Captures α} :
    Denotes (seq a b) s c ↔
      ∃ s₁ s₂ c₁ c₂, s = s₁ ++ s₂ ∧ c = c₂ ++ c₁ ∧ Denotes a s₁ c₁ ∧ Denotes b s₂ c₂ := by
  constructor
  · intro denotes
    cases denotes with
    | seq first second => exact ⟨_, _, _, _, rfl, rfl, first, second⟩
  · rintro ⟨s₁, s₂, c₁, c₂, rfl, rfl, first, second⟩
    exact .seq first second

theorem denotes_alt {a b : Regex α} {s : List α} {c : Captures α} :
    Denotes (alt a b) s c ↔ Denotes a s c ∨ Denotes b s c := by
  constructor
  · intro denotes
    cases denotes with
    | left one => exact .inl one
    | right one => exact .inr one
  · rintro (one | one)
    · exact .left one
    · exact .right one

/-- A sequence takes the texts of its parts. -/
theorem takes_seq {a b : Regex α} {s : List α} :
    (∃ c, Denotes (.seq a b) s c) ↔
      ∃ s₁ s₂, (∃ c, Denotes a s₁ c) ∧ (∃ c, Denotes b s₂ c) ∧ s = s₁ ++ s₂ := by
  simp only [denotes_seq]
  constructor
  · rintro ⟨c, s₁, s₂, c₁, c₂, rfl, rfl, first, second⟩
    exact ⟨s₁, s₂, ⟨c₁, first⟩, ⟨c₂, second⟩, rfl⟩
  · rintro ⟨s₁, s₂, ⟨c₁, first⟩, ⟨c₂, second⟩, rfl⟩
    exact ⟨c₂ ++ c₁, s₁, s₂, c₁, c₂, rfl, rfl, first, second⟩

/-- An alternative takes the texts of both. -/
theorem takes_alt {a b : Regex α} {s : List α} :
    (∃ c, Denotes (.alt a b) s c) ↔ (∃ c, Denotes a s c) ∨ ∃ c, Denotes b s c := by
  simp only [denotes_alt, exists_or]

theorem denotes_group {i : Nat} {a : Regex α} {s : List α} {c : Captures α} :
    Denotes (group i a) s c ↔ ∃ d, c = (i, s) :: d ∧ Denotes a s d := by
  constructor
  · intro denotes
    cases denotes with
    | group inner => exact ⟨_, rfl, inner⟩
  · rintro ⟨d, rfl, inner⟩
    exact .group inner

/-- A repetition takes the texts of its turns one after the other. -/
theorem denotes_rep {a : Regex α} {s : List α} : ∀ {hi lo : Nat},
    (∃ c, Denotes (rep lo hi a) s c) ↔
      ∃ parts : List (List α), lo ≤ parts.length ∧ parts.length ≤ hi ∧ s = parts.flatten ∧
        ∀ t ∈ parts, ∃ c, Denotes a t c := by
  intro hi
  induction hi generalizing s with
  | zero =>
      intro lo
      constructor
      · rintro ⟨c, denotes⟩
        cases denotes
        exact ⟨[], by simp⟩
      · rintro ⟨parts, least, most, rfl, -⟩
        obtain rfl : parts = [] := List.length_eq_zero_iff.mp (by omega)
        obtain rfl : lo = 0 := by simpa using least
        exact ⟨[], .done⟩
  | succ hi ih =>
      intro lo
      constructor
      · rintro ⟨c, denotes⟩
        cases denotes with
        | done => exact ⟨[], by simp⟩
        | more first others =>
            obtain ⟨parts, least, most, rfl, each⟩ := ih.mp ⟨_, others⟩
            refine ⟨_ :: parts, ?_, ?_, rfl, List.forall_mem_cons.mpr ⟨⟨_, first⟩, each⟩⟩
            · rw [List.length_cons]
              omega
            · rw [List.length_cons]
              omega
      · rintro ⟨parts, least, most, rfl, each⟩
        cases parts with
        | nil =>
            obtain rfl : lo = 0 := by simpa using least
            exact ⟨[], .done⟩
        | cons part parts =>
            obtain ⟨⟨c, first⟩, each⟩ := List.forall_mem_cons.mp each
            rw [List.length_cons] at least most
            have fewer : ∃ d, Denotes (rep (lo - 1) hi a) parts.flatten d :=
              ih.mpr ⟨parts, by omega, by omega, rfl, each⟩
            obtain ⟨d, others⟩ := fewer
            exact ⟨_, .more first others⟩

/-- So many letters of a class. -/
theorem denotes_letters {p : α → Bool} {s : List α} {c : Captures α} : ∀ {hi lo : Nat},
    Denotes (rep lo hi (letter p)) s c ↔
      c = [] ∧ lo ≤ s.length ∧ s.length ≤ hi ∧ ∀ x ∈ s, p x = true := by
  intro hi
  induction hi generalizing s c with
  | zero =>
      intro lo
      constructor
      · intro denotes
        cases denotes
        simp
      · rintro ⟨rfl, least, most, -⟩
        obtain rfl : s = [] := List.length_eq_zero_iff.mp (by omega)
        obtain rfl : lo = 0 := by simpa using least
        exact .done
  | succ hi ih =>
      intro lo
      constructor
      · intro denotes
        cases denotes with
        | done => simp
        | more first others =>
            obtain ⟨x, is, rfl, rfl⟩ := denotes_letter.mp first
            obtain ⟨rfl, least, most, each⟩ := ih.mp others
            refine ⟨rfl, ?_, ?_, List.forall_mem_cons.mpr ⟨is, each⟩⟩
            · rw [List.length_append, List.length_singleton]
              omega
            · rw [List.length_append, List.length_singleton]
              omega
      · rintro ⟨rfl, least, most, each⟩
        cases s with
        | nil =>
            obtain rfl : lo = 0 := by simpa using least
            exact .done
        | cons x s =>
            obtain ⟨is, each⟩ := List.forall_mem_cons.mp each
            rw [List.length_cons] at least most
            exact .more (.letter is) (ih.mpr ⟨rfl, by omega, by omega, each⟩)

/-- A repeated letter takes the texts of its class. -/
theorem takes_letters {p : α → Bool} {lo hi : Nat} {s : List α} :
    (∃ c, Denotes (rep lo hi (letter p)) s c) ↔ lo ≤ s.length ∧ s.length ≤ hi ∧ ∀ x ∈ s, p x = true := by
  simp only [denotes_letters, exists_eq_left]

/-! ## Fixed texts -/

/-- This text, letter by letter. -/
def ofText [DecidableEq α] : List α → Regex α
  | [] => .empty
  | x :: text => .seq (.letter (· == x)) (ofText text)

theorem takes_ofText [DecidableEq α] {text s : List α} : (∃ c, Denotes (ofText text) s c) ↔ s = text := by
  induction text generalizing s with
  | nil => simp [ofText, denotes_empty]
  | cons x text ih => simp [ofText, takes_seq, ih, denotes_letter]

/-! ## Fields between marks -/

/-- A part of a text of fixed form. -/
inductive Item (α : Type) where
  /-- A captured group of at least `lo` and at most `hi` letters of a class. -/
  | field (i lo hi : Nat) (p : α → Bool)
  /-- One letter, not captured. -/
  | mark (q : α → Bool)

namespace Item

def regex : Item α → Regex α
  | field i lo hi p => .group i (.rep lo hi (.letter p))
  | mark q => .letter q

/-- The texts of an item. -/
def Takes : Item α → List α → Prop
  | field _ lo hi p, t => lo ≤ t.length ∧ t.length ≤ hi ∧ ∀ x ∈ t, p x = true
  | mark q, t => ∃ x, q x = true ∧ t = [x]

/-- What is captured of it. -/
def captured : Item α → List α → Captures α
  | field i _ _ _, t => [(i, t)]
  | mark _, _ => []

theorem denotes_regex {item : Item α} {s : List α} {c : Captures α} :
    Denotes item.regex s c ↔ item.Takes s ∧ c = item.captured s := by
  cases item with
  | field i lo hi p =>
      simp only [regex, denotes_group, denotes_letters, Takes, captured]
      constructor
      · rintro ⟨d, rfl, rfl, takes⟩
        exact ⟨takes, rfl⟩
      · rintro ⟨takes, rfl⟩
        exact ⟨[], rfl, rfl, takes⟩
  | mark q =>
      simp only [regex, denotes_letter, Takes, captured]
      constructor
      · rintro ⟨x, is, rfl, rfl⟩
        exact ⟨⟨x, is, rfl⟩, rfl⟩
      · rintro ⟨⟨x, is, rfl⟩, rfl⟩
        exact ⟨x, is, rfl, rfl⟩

end Item

/-- The items one after the other. -/
def ofItems : List (Item α) → Regex α
  | [] => .empty
  | item :: items => .seq item.regex (ofItems items)

/-- What is captured of the texts of the items. -/
def capturedOf : List (Item α) → List (List α) → Captures α
  | item :: items, t :: texts => capturedOf items texts ++ item.captured t
  | _, _ => []

theorem denotes_ofItems {items : List (Item α)} {s : List α} {c : Captures α} :
    Denotes (ofItems items) s c ↔
      ∃ texts, List.Forall₂ Item.Takes items texts ∧ s = texts.flatten ∧ c = capturedOf items texts := by
  induction items generalizing s c with
  | nil =>
      rw [ofItems, denotes_empty]
      constructor
      · rintro ⟨rfl, rfl⟩
        exact ⟨[], .nil, rfl, rfl⟩
      · rintro ⟨texts, ⟨⟩, rfl, rfl⟩
        exact ⟨rfl, rfl⟩
  | cons item items ih =>
      rw [ofItems, denotes_seq]
      constructor
      · rintro ⟨t, rest, c₁, c₂, rfl, rfl, first, others⟩
        obtain ⟨takes, rfl⟩ := Item.denotes_regex.mp first
        obtain ⟨texts, all, rfl, rfl⟩ := ih.mp others
        exact ⟨t :: texts, .cons takes all, rfl, rfl⟩
      · rintro ⟨texts, all, rfl, rfl⟩
        cases all with
        | cons takes all =>
            exact ⟨_, _, _, _, rfl, rfl, Item.denotes_regex.mpr ⟨takes, rfl⟩,
              ih.mpr ⟨_, all, rfl, rfl⟩⟩

/-- Items with a mark between each two of them. -/
theorem takes_intersperse [DecidableEq α] (sep : α) {items : List (Item α)} {texts : List (List α)} :
    List.Forall₂ Item.Takes (items.intersperse (.mark (· == sep))) texts ↔
      ∃ groups, List.Forall₂ Item.Takes items groups ∧ texts = groups.intersperse [sep] := by
  induction items generalizing texts with
  | nil =>
      constructor
      · rintro ⟨⟩
        exact ⟨[], .nil, rfl⟩
      · rintro ⟨groups, ⟨⟩, rfl⟩
        exact .nil
  | cons item items ih =>
      cases items with
      | nil =>
          constructor
          · intro all
            exact ⟨texts, all, by cases all with | cons _ rest => cases rest; rfl⟩
          · rintro ⟨groups, all, rfl⟩
            cases all with
            | cons takes rest =>
                cases rest
                exact .cons takes .nil
      | cons next items =>
          rw [List.intersperse_cons_cons]
          constructor
          · intro all
            cases all with
            | cons takes all =>
                cases all with
                | cons mark all =>
                    obtain ⟨x, same, rfl⟩ := mark
                    obtain rfl : x = sep := by simpa using same
                    obtain ⟨groups, others, rfl⟩ := ih.mp all
                    refine ⟨_ :: groups, .cons takes others, ?_⟩
                    cases others
                    rfl
          · rintro ⟨groups, all, rfl⟩
            cases all with
            | cons takes others =>
                have rest := ih.mpr ⟨_, others, rfl⟩
                cases others with
                | cons takes' others => exact .cons takes (.cons ⟨sep, by simp, rfl⟩ rest)

theorem capturedOf_intersperse (sep : α) (q : α → Bool) {items : List (Item α)}
    {groups : List (List α)} (all : List.Forall₂ Item.Takes items groups) :
    capturedOf (items.intersperse (.mark q)) (groups.intersperse [sep]) = capturedOf items groups := by
  induction all with
  | nil => rfl
  | cons takes others ih =>
      cases others with
      | nil => rfl
      | cons takes' others =>
          rw [List.intersperse_cons_cons, List.intersperse_cons_cons, capturedOf, capturedOf, ih]
          exact congrArg (· ++ _) (List.append_nil _)

/-- Fields with one separator between them. -/
theorem denotes_separated [DecidableEq α] (sep : α) {items : List (Item α)} {s : List α}
    {c : Captures α} :
    Denotes (ofItems (items.intersperse (.mark (· == sep)))) s c ↔
      ∃ groups, List.Forall₂ Item.Takes items groups ∧ s = [sep].intercalate groups ∧
        c = capturedOf items groups := by
  rw [denotes_ofItems]
  constructor
  · rintro ⟨texts, all, rfl, rfl⟩
    obtain ⟨groups, takes, rfl⟩ := (takes_intersperse sep).mp all
    exact ⟨groups, takes, rfl, capturedOf_intersperse sep _ takes⟩
  · rintro ⟨groups, takes, rfl, rfl⟩
    exact ⟨_, (takes_intersperse sep).mpr ⟨groups, takes, rfl⟩, rfl,
      (capturedOf_intersperse sep _ takes).symm⟩

/-- So many fields of one form, numbered from the first one on. -/
def numbered (lo hi : Nat) (p : α → Bool) : Nat → Nat → List (Item α)
  | _, 0 => []
  | first, count + 1 => .field first lo hi p :: numbered lo hi p (first + 1) count

theorem takes_numbered {lo hi : Nat} {p : α → Bool} {first count : Nat} {groups : List (List α)} :
    List.Forall₂ Item.Takes (numbered lo hi p first count) groups ↔
      groups.length = count ∧
        ∀ g ∈ groups, lo ≤ g.length ∧ g.length ≤ hi ∧ ∀ x ∈ g, p x = true := by
  induction count generalizing first groups with
  | zero =>
      constructor
      · rintro ⟨⟩
        simp
      · rintro ⟨none, -⟩
        rw [List.length_eq_zero_iff.mp none]
        exact .nil
  | succ count ih =>
      constructor
      · intro all
        cases all with
        | cons takes others =>
            obtain ⟨length, each⟩ := ih.mp others
            exact ⟨by rw [List.length_cons, length], List.forall_mem_cons.mpr ⟨takes, each⟩⟩
      · rintro ⟨length, each⟩
        cases groups with
        | nil => cases length
        | cons g groups =>
            obtain ⟨takes, each⟩ := List.forall_mem_cons.mp each
            exact .cons takes (ih.mpr ⟨Nat.succ.inj length, each⟩)

theorem lookup_numbered {lo hi : Nat} {p : α → Bool} {count : Nat} :
    ∀ {first : Nat} {groups : List (List α)}, groups.length = count → ∀ i,
      (capturedOf (numbered lo hi p first count) groups).lookup i =
        if first ≤ i then groups[i - first]? else none := by
  induction count with
  | zero =>
      intro first groups none i
      rw [List.length_eq_zero_iff.mp none]
      simp [numbered, capturedOf]
  | succ count ih =>
      intro first groups length i
      cases groups with
      | nil => cases length
      | cons g groups =>
          rw [numbered, capturedOf, Item.captured, List.lookup_append, ih (Nat.succ.inj length) i]
          rcases Nat.lt_trichotomy i first with less | same | more
          · have later : ¬first + 1 ≤ i := by omega
            have other : (i == first) = false := by simpa using Nat.ne_of_lt less
            simp [later, List.lookup_cons, other, Nat.not_le.mpr less]
          · subst same
            have later : ¬i + 1 ≤ i := by omega
            simp [later]
          · have here : first ≤ i := by omega
            have later : first + 1 ≤ i := by omega
            have other : (i == first) = false := by simpa using Nat.ne_of_gt more
            have next : i - first = i - (first + 1) + 1 := by omega
            simp [here, later, List.lookup_cons, other, next]

/-- What the field of a number has captured. -/
theorem group_numbered {lo hi : Nat} {p : α → Bool} {first count : Nat} {groups : List (List α)}
    (length : groups.length = count) (i : Nat) :
    (capturedOf (numbered lo hi p first count) groups).group i =
      if first ≤ i then groups.getD (i - first) [] else [] := by
  rw [Captures.group, lookup_numbered length, List.getD_eq_getElem?_getD]
  split_ifs <;> rfl

end Regex

end Drunos.Theory
