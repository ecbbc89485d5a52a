/-
# Drunos.Types.Ethaddr — the text form of Ethernet addresses

`parseMAC` and `operator<<` of `ethaddr.cc`. The pattern has three alternatives: six groups of two
hexadecimal digits between colons, or between dashes, or three groups of four between dots. The dots are
not escaped, so they stand for any characters, and that is all that goes wrong
(`ethaddrRight_iff`). What is printed is read back (`ethaddr_print`).
-/
import Drunos.Types.Text

namespace Drunos.Types

open Drunos.Theory Drunos.Theory.Regex

set_option autoImplicit false

abbrev Ethaddr := BitVec 48

def isBroadcast (addr : Ethaddr) : Bool := addr == BitVec.allOnes 48

/-! ## parseMAC -/

/-- `([[:xdigit:]]{2})`. -/
def hexPair (i : Nat) : Item Char := .field i 2 2 isXdigit

/-- Six of these groups, numbered from `first` on, with a separator between them. -/
def macPatternWith (sep : Char) (first : Nat) : Regex Char :=
  ofItems ((numbered 2 2 isXdigit first 6).intersperse (.mark (· == sep)))

def macPatternColon : Regex Char := macPatternWith ':' 1

def macPatternDash : Regex Char := macPatternWith '-' 7

/-- The `^` in front of it holds wherever a match of the whole text begins. -/
def macPatternDots : Regex Char :=
  ofItems [hexPair 13, hexPair 14, .mark isAny, hexPair 15, hexPair 16, .mark isAny, hexPair 17,
    hexPair 18]

def macPattern : Regex Char := .alt macPatternColon (.alt macPatternDash macPatternDots)

def parseMAC (str : Text) : Except AddressError (BitVec 64) :=
  match fullMatch macPattern str with
  | none => .error (.badRepresentation ("Bad MAC address: ".toList ++ str))
  | some m =>
      let base := if 0 < (m.group 1).length then 0 else if 0 < (m.group 7).length then 6 else 12
      .ok (([1, 2, 3, 4, 5, 6].map fun oct => stoi 16 (m.group (base + oct))).foldl (shiftIn 8) 0)

/-- `ethaddr(str)`. -/
def ethaddr (str : Text) : Except AddressError Ethaddr := (parseMAC str).map (·.setWidth 48)

/-! ## Printing -/

/-- `to_octets`. -/
def ethOctets (addr : Ethaddr) : List (BitVec 8) :=
  let num : BitVec 64 := addr.setWidth 64
  [cut 8 num 0xff0000000000 40, cut 8 num 0xff00000000 32, cut 8 num 0xff000000 24,
    cut 8 num 0xff0000 16, cut 8 num 0xff00 8, cut 8 num 0xff 0]

/-- `operator<<`: `%02x` six times. -/
def printEthaddr (addr : Ethaddr) : Text :=
  join ':' ((ethOctets addr).map fun octet => padded 2 (hex octet.toNat))

/-! ## What the text form is -/

def HexGroup (size : Nat) (g : Text) : Prop := g.length = size ∧ ∀ c ∈ g, isXdigit c = true

instance (size : Nat) (g : Text) : Decidable (HexGroup size g) :=
  decidable_of_iff (g.length = size ∧ g.all isXdigit = true) (by simp [HexGroup])

/-- The text of an address and its number. -/
inductive MacText : Text → Nat → Prop
  | pairs {sep : Char} {groups : List Text} (colonOrDash : sep = ':' ∨ sep = '-')
      (six : groups.length = 6) (hex : ∀ g ∈ groups, HexGroup 2 g) :
      MacText (join sep groups) (positional 256 (groups.map (stoi 16)))
  | dotted {groups : List Text} (three : groups.length = 3) (hex : ∀ g ∈ groups, HexGroup 4 g) :
      MacText (join '.' groups) (positional 65536 (groups.map (stoi 16)))

/-- The dotted form with other characters instead of a dot. -/
def LooseDots (s : Text) : Prop :=
  ∃ g₁ g₂ g₃ x y, HexGroup 4 g₁ ∧ HexGroup 4 g₂ ∧ HexGroup 4 g₃ ∧ isAny x = true ∧ isAny y = true ∧
    s = g₁ ++ x :: (g₂ ++ y :: g₃) ∧ ¬(x = '.' ∧ y = '.')

def EthaddrRight (s : Text) : Prop := Accepts ethaddr MacText "Bad MAC address: ".toList s

/-! ## The pattern -/

theorem hexGroup_iff {size : Nat} {g : Text} :
    (size ≤ g.length ∧ g.length ≤ size ∧ ∀ c ∈ g, isXdigit c = true) ↔ HexGroup size g := by
  constructor
  · rintro ⟨least, most, each⟩
    exact ⟨by omega, each⟩
  · rintro ⟨length, each⟩
    exact ⟨by omega, by omega, each⟩

theorem denotes_macPatternWith {sep : Char} {first : Nat} {s : Text} {c : Captures Char} :
    Denotes (macPatternWith sep first) s c ↔
      ∃ groups : List Text, groups.length = 6 ∧ (∀ g ∈ groups, HexGroup 2 g) ∧ s = join sep groups ∧
        c = capturedOf (numbered 2 2 isXdigit first 6) groups := by
  simp only [macPatternWith, denotes_separated, takes_numbered, hexGroup_iff, join, and_assoc]

theorem denotes_macPatternDots {s : Text} {c : Captures Char} :
    Denotes macPatternDots s c ↔
      ∃ (g₁ g₂ g₃ g₄ g₅ g₆ : Text) (x y : Char), (∀ g ∈ [g₁, g₂, g₃, g₄, g₅, g₆], HexGroup 2 g) ∧
        isAny x = true ∧ isAny y = true ∧ s = g₁ ++ g₂ ++ x :: (g₃ ++ g₄ ++ y :: (g₅ ++ g₆)) ∧
        c = [(18, g₆), (17, g₅), (16, g₄), (15, g₃), (14, g₂), (13, g₁)] := by
  simp only [macPatternDots, denotes_ofItems, List.forall₂_cons_left_iff, List.forall₂_nil_left_iff,
    hexPair, Item.Takes, hexGroup_iff]
  constructor
  · rintro ⟨-, ⟨g₁, -, one, ⟨g₂, -, two, ⟨-, -, ⟨x, dot, rfl⟩, ⟨g₃, -, three, ⟨g₄, -, four, ⟨-, -,
      ⟨y, dot', rfl⟩, ⟨g₅, -, five, ⟨g₆, -, six, rfl, rfl⟩, rfl⟩, rfl⟩, rfl⟩, rfl⟩, rfl⟩, rfl⟩, rfl⟩,
      rfl, rfl⟩
    exact ⟨g₁, g₂, g₃, g₄, g₅, g₆, x, y, by simp [one, two, three, four, five, six], dot, dot',
      by simp, rfl⟩
  · rintro ⟨g₁, g₂, g₃, g₄, g₅, g₆, x, y, hex, dot, dot', rfl, rfl⟩
    simp only [List.forall_mem_cons] at hex
    obtain ⟨one, two, three, four, five, six, -⟩ := hex
    exact ⟨_, ⟨g₁, _, one, ⟨g₂, _, two, ⟨[x], _, ⟨x, dot, rfl⟩, ⟨g₃, _, three, ⟨g₄, _, four, ⟨[y], _,
      ⟨y, dot', rfl⟩, ⟨g₅, _, five, ⟨g₆, _, six, rfl, rfl⟩, rfl⟩, rfl⟩, rfl⟩, rfl⟩, rfl⟩, rfl⟩, rfl⟩,
      by simp, rfl⟩

/-! ## What the constructor makes of a match -/

theorem HexGroup.stoi_lt {size : Nat} {g : Text} (hex : HexGroup size g) : stoi 16 g < 16 ^ size := by
  have below := Types.stoi_lt fun c mem => digitValue_xdigit (hex.2 c mem)
  rwa [hex.1] at below

/-- The number of an address is that of all its digits. -/
theorem stoi_groups {size : Nat} {groups : List Text} (hex : ∀ g ∈ groups, HexGroup size g) :
    positional (16 ^ size) (groups.map (stoi 16)) = stoi 16 groups.flatten :=
  stoi_flatten fun g mem => (hex g mem).1

/-- Six groups that the match has at `base` make the number of their digits. -/
theorem ethaddr_of_groups {s : Text} {m : Captures Char} {groups : List Text}
    (found : fullMatch macPattern s = some m) (six : groups.length = 6)
    (hex : ∀ g ∈ groups, HexGroup 2 g)
    (picked : [1, 2, 3, 4, 5, 6].map (fun oct => m.group
      ((if 0 < (m.group 1).length then 0 else if 0 < (m.group 7).length then 6 else 12) + oct)) =
        groups) :
    ∃ addr, ethaddr s = .ok addr ∧ addr.toNat = stoi 16 groups.flatten := by
  have room : (groups.map (stoi 16)).length * 8 ≤ 64 := by simp [six]
  have fit : ∀ n ∈ groups.map (stoi 16), n < 2 ^ 8 := by
    intro n mem
    obtain ⟨g, here, rfl⟩ := List.mem_map.mp mem
    exact (hex g here).stoi_lt
  have value : ((groups.map (stoi 16)).foldl (shiftIn 8) 0).toNat = stoi 16 groups.flatten :=
    (shiftIn_groups room fit).trans (stoi_groups hex)
  have below : stoi 16 groups.flatten < 2 ^ 48 := by
    rw [← value, shiftIn_groups room fit]
    have less := positional_lt fit
    simpa [six] using less
  refine ⟨((groups.map (stoi 16)).foldl (shiftIn 8) 0).setWidth 48, ?_, ?_⟩
  · simp only [ethaddr, parseMAC, found, ← picked, List.map_map]
    rfl
  · rw [BitVec.toNat_setWidth, value, Nat.mod_eq_of_lt below]

theorem six_groups {groups : List Text} (six : groups.length = 6) :
    ∃ g₁ g₂ g₃ g₄ g₅ g₆, groups = [g₁, g₂, g₃, g₄, g₅, g₆] := by
  match groups, six with
  | [g₁, g₂, g₃, g₄, g₅, g₆], _ => exact ⟨g₁, g₂, g₃, g₄, g₅, g₆, rfl⟩

/-- The separated form, if its groups begin where the match is looked for. -/
theorem ethaddr_pairs {sep : Char} {first : Nat} {s : Text} {m : Captures Char}
    (colonOrDash : sep = ':' ∧ first = 1 ∨ sep = '-' ∧ first = 7)
    (found : fullMatch macPattern s = some m) (denotes : Denotes (macPatternWith sep first) s m) :
    ∃ addr, ethaddr s = .ok addr ∧ MacText s addr.toNat := by
  obtain ⟨groups, six, hex, rfl, rfl⟩ := denotes_macPatternWith.mp denotes
  have text : MacText (join sep groups) (stoi 16 groups.flatten) := by
    rw [← stoi_groups hex]
    exact .pairs (colonOrDash.imp And.left And.left) six hex
  have picked : [1, 2, 3, 4, 5, 6].map (fun oct =>
      (capturedOf (numbered 2 2 isXdigit first 6) groups).group
        ((if 0 < ((capturedOf (numbered 2 2 isXdigit first 6) groups).group 1).length then 0
          else if 0 < ((capturedOf (numbered 2 2 isXdigit first 6) groups).group 7).length then 6
          else 12) + oct)) = groups := by
    obtain ⟨g₁, g₂, g₃, g₄, g₅, g₆, rfl⟩ := six_groups six
    have length := (hex g₁ (by simp)).1
    simp only [group_numbered six]
    rcases colonOrDash with ⟨-, rfl⟩ | ⟨-, rfl⟩ <;> simp [length]
  obtain ⟨addr, ok, value⟩ := ethaddr_of_groups found six hex picked
  exact ⟨addr, ok, value ▸ text⟩

/-- The form with two characters for the dots. -/
theorem ethaddr_dots {s : Text} {m : Captures Char} (found : fullMatch macPattern s = some m)
    (denotes : Denotes macPatternDots s m) :
    ∃ addr, ethaddr s = .ok addr ∧ (MacText s addr.toNat ∨ LooseDots s) := by
  obtain ⟨g₁, g₂, g₃, g₄, g₅, g₆, x, y, hex, dot, dot', rfl, rfl⟩ := denotes_macPatternDots.mp denotes
  obtain ⟨addr, ok, value⟩ := ethaddr_of_groups found rfl hex rfl
  refine ⟨addr, ok, ?_⟩
  have quad {g g' : Text} (pair : HexGroup 2 g) (pair' : HexGroup 2 g') : HexGroup 4 (g ++ g') := by
    refine ⟨by rw [List.length_append, pair.1, pair'.1], fun c mem => ?_⟩
    exact (List.mem_append.mp mem).elim (pair.2 c) (pair'.2 c)
  simp only [List.forall_mem_cons] at hex
  obtain ⟨one, two, three, four, five, six, -⟩ := hex
  by_cases dots : x = '.' ∧ y = '.'
  · obtain ⟨rfl, rfl⟩ := dots
    have quads : ∀ g ∈ [g₁ ++ g₂, g₃ ++ g₄, g₅ ++ g₆], HexGroup 4 g := by
      simp [quad one two, quad three four, quad five six]
    have text := MacText.dotted rfl quads
    rw [show (65536 : Nat) = 16 ^ 4 from rfl, stoi_groups quads] at text
    refine .inl ?_
    rw [value]
    simpa using text
  · exact .inr ⟨g₁ ++ g₂, g₃ ++ g₄, g₅ ++ g₆, x, y, quad one two, quad three four, quad five six, dot,
      dot', rfl, dots⟩

/-! ## The exact condition -/

/-- A match is an address, or a dotted form with other characters for the dots. -/
theorem ethaddr_of_match {s : Text} {m : Captures Char} (found : fullMatch macPattern s = some m) :
    ∃ addr, ethaddr s = .ok addr ∧ (MacText s addr.toNat ∨ LooseDots s) := by
  rcases denotes_alt.mp (denotes_of_fullMatch found) with colon | other
  · obtain ⟨addr, ok, text⟩ := ethaddr_pairs (.inl ⟨rfl, rfl⟩) found colon
    exact ⟨addr, ok, .inl text⟩
  · rcases denotes_alt.mp other with dash | dots
    · obtain ⟨addr, ok, text⟩ := ethaddr_pairs (.inr ⟨rfl, rfl⟩) found dash
      exact ⟨addr, ok, .inl text⟩
    · exact ethaddr_dots found dots

theorem halves {g : Text} (hex : HexGroup 4 g) :
    HexGroup 2 (g.take 2) ∧ HexGroup 2 (g.drop 2) := by
  refine ⟨⟨by simp [hex.1], fun c mem => hex.2 c (List.mem_of_mem_take mem)⟩, by simp [hex.1],
    fun c mem => hex.2 c (List.mem_of_mem_drop mem)⟩

/-- Three groups of four with anything but the end of a line between them match. -/
theorem match_dots {g₁ g₂ g₃ : Text} {x y : Char} (one : HexGroup 4 g₁) (two : HexGroup 4 g₂)
    (three : HexGroup 4 g₃) (dot : isAny x = true) (dot' : isAny y = true) :
    ∃ m, fullMatch macPattern (g₁ ++ x :: (g₂ ++ y :: g₃)) = some m := by
  refine fullMatch_isSome (.right (.right (denotes_macPatternDots.mpr
    ⟨g₁.take 2, g₁.drop 2, g₂.take 2, g₂.drop 2, g₃.take 2, g₃.drop 2, x, y, ?_, dot, dot', by simp,
      rfl⟩)))
  simp [halves one, halves two, halves three]

theorem MacText.matches {s : Text} {n : Nat} (text : MacText s n) :
    ∃ m, fullMatch macPattern s = some m := by
  cases text with
  | pairs colonOrDash six hex =>
      rcases colonOrDash with rfl | rfl
      · exact fullMatch_isSome (.left (denotes_macPatternWith.mpr ⟨_, six, hex, rfl, rfl⟩))
      · exact fullMatch_isSome (.right (.left (denotes_macPatternWith.mpr ⟨_, six, hex, rfl, rfl⟩)))
  | @dotted groups three hex =>
      match groups, three with
      | [g₁, g₂, g₃], _ =>
          simp only [List.forall_mem_cons] at hex
          obtain ⟨one, two, three, -⟩ := hex
          simpa using match_dots (x := '.') (y := '.') one two three (by decide) (by decide)

/-- The number is determined by the text. -/
theorem MacText.value {s : Text} {n : Nat} (text : MacText s n) : n = stoi 16 (s.filter isXdigit) := by
  cases text with
  | @pairs sep groups colonOrDash six hex =>
      have mark : isXdigit sep = false := by
        rcases colonOrDash with rfl | rfl <;> decide
      rw [filter_join mark fun g mem => (hex g mem).2]
      exact stoi_groups hex
  | dotted three hex =>
      rw [filter_join (by decide) fun g mem => (hex g mem).2]
      exact stoi_groups hex

theorem LooseDots.not_macText {s : Text} (loose : LooseDots s) (n : Nat) : ¬MacText s n := by
  obtain ⟨g₁, g₂, g₃, x, y, one, two, three, dot, dot', rfl, other⟩ := loose
  intro text
  generalize same : g₁ ++ x :: (g₂ ++ y :: g₃) = s at text
  have length : s.length = 14 := by simp [← same, one.1, two.1, three.1]
  cases text with
  | pairs colonOrDash six hex =>
      rw [length_join _ fun g mem => (hex g mem).1, six] at length
      cases length
  | @dotted groups count hex =>
      match groups, count with
      | [h₁, h₂, h₃], _ =>
          simp only [List.forall_mem_cons] at hex
          obtain ⟨one', two', three', -⟩ := hex
          simp only [join_cons_cons, join_singleton] at same
          obtain ⟨rfl, first⟩ := List.append_inj same (by rw [one.1, one'.1])
          obtain ⟨rfl, rest⟩ := List.cons.inj first
          obtain ⟨rfl, second⟩ := List.append_inj rest (by rw [two.1, two'.1])
          obtain ⟨rfl, -⟩ := List.cons.inj second
          exact other ⟨rfl, rfl⟩

/-- **The constructor is right about a text, unless it is the dotted form with another character for a
dot.** -/
theorem ethaddrRight_iff (s : Text) : EthaddrRight s ↔ ¬LooseDots s := by
  refine accepts_iff ?_ (fun k k' text text' => text.value.trans text'.value.symm)
    LooseDots.not_macText
  cases found : fullMatch macPattern s with
  | none =>
      refine .inl ⟨by simp [ethaddr, parseMAC, found, Except.map], fun k text => ?_, fun loose => ?_⟩
      · obtain ⟨m, some⟩ := text.matches
        simp [found] at some
      · obtain ⟨g₁, g₂, g₃, x, y, one, two, three, dot, dot', rfl, -⟩ := loose
        obtain ⟨m, some⟩ := match_dots one two three dot dot'
        simp [found] at some
  | some m => exact .inr (ethaddr_of_match found)

/-! ## Printed addresses -/

theorem ethOctets_value (addr : Ethaddr) :
    positional 256 ((ethOctets addr).map BitVec.toNat) = addr.toNat := by
  have bound := addr.isLt
  have wide : (addr.setWidth 64).toNat = addr.toNat := by
    rw [BitVec.toNat_setWidth]
    omega
  simp (disch := decide) only [ethOctets, List.map_cons, List.map_nil, cut_toNat, wide, positional,
    List.foldl_cons, List.foldl_nil]
  omega

/-- What is printed is an address with its number, and so it is read back. -/
theorem ethaddr_print (addr : Ethaddr) : ethaddr (printEthaddr addr) = .ok addr := by
  have octet (o : BitVec 8) : HexGroup 2 (padded 2 (hex o.toNat)) := by
    obtain ⟨length, each, -⟩ := hex_octet o.toNat o.isLt
    exact ⟨length, List.all_eq_true.mp each⟩
  have hexes : ∀ g ∈ (ethOctets addr).map fun o => padded 2 (hex o.toNat), HexGroup 2 g := by
    intro g mem
    obtain ⟨o, -, rfl⟩ := List.mem_map.mp mem
    exact octet o
  have text : MacText (printEthaddr addr) addr.toNat := by
    have pairs : MacText (join ':' _) _ := .pairs (.inl rfl) rfl hexes
    have values : ((ethOctets addr).map fun o => padded 2 (hex o.toNat)).map (stoi 16) =
        (ethOctets addr).map BitVec.toNat := by
      rw [List.map_map]
      exact List.map_congr_left fun o _ => (hex_octet o.toNat o.isLt).2.2
    rw [values, ethOctets_value] at pairs
    exact pairs
  have strict : ¬LooseDots (printEthaddr addr) := fun loose => loose.not_macText _ text
  exact (((ethaddrRight_iff _).mpr strict).1 addr).mpr text

end Drunos.Types
