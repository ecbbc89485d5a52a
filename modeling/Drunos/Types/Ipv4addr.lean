/-
# Drunos.Types.Ipv4addr — IPv4 addresses

`parseipv4address`, `operator<<` and the classes of addresses of `ipv4addr.cc`. The dots of the pattern
are not escaped, so each stands for any character, and nothing bounds a group but its three digits; it is
cast to eight bits. That is all that goes wrong with texts (`ipv4addrRight_iff`), and
`addressTexts_iff` says it together with what is known of `ethaddr`.

The prefix 192.168.0.0 is written with a fifth dot, which no match admits. So `is_private` throws for
every address of which the first two prefixes do not decide, and it is `noexcept`
(`classified_iff`).
-/
import Drunos.Types.Ethaddr

namespace Drunos.Types

open Drunos.Theory Drunos.Theory.Regex

set_option autoImplicit false

abbrev Ipv4addr := BitVec 32

/-! ## parseipv4address -/

/-- `([[:digit:]]{1,3})`. -/
def digits (i : Nat) : Item Char := .field i 1 3 isDigit

def ipv4Pattern : Regex Char :=
  ofItems [digits 1, .mark isAny, digits 2, .mark isAny, digits 3, .mark isAny, digits 4]

def parseipv4address (str : Text) : Except AddressError (BitVec 64) :=
  match fullMatch ipv4Pattern str with
  | none => .error (.badRepresentation ("Bad IPv4 address: ".toList ++ str))
  | some m => .ok (([1, 2, 3, 4].map fun oct => stoi 10 (m.group oct)).foldl (shiftIn 8) 0)

/-- `ipv4addr(str)`, and `bits_type` of a parsed text. -/
def ipv4addr (str : Text) : Except AddressError Ipv4addr :=
  (parseipv4address str).map (·.setWidth 32)

/-- `to_octets`. -/
def ipv4Octets (addr : Ipv4addr) : List (BitVec 8) :=
  [cut 8 addr 0xff000000 24, cut 8 addr 0xff0000 16, cut 8 addr 0xff00 8, cut 8 addr 0xff 0]

/-- `operator<<`: `%u` four times. -/
def printIpv4addr (addr : Ipv4addr) : Text :=
  join '.' ((ipv4Octets addr).map fun octet => decimal octet.toNat)

/-! ## What the text form is -/

def DecGroup (g : Text) : Prop := 1 ≤ g.length ∧ g.length ≤ 3 ∧ ∀ c ∈ g, isDigit c = true

instance (g : Text) : Decidable (DecGroup g) :=
  decidable_of_iff (1 ≤ g.length ∧ g.length ≤ 3 ∧ g.all isDigit = true) (by simp [DecGroup])

/-- The text of an address and its number. -/
inductive Ipv4Text : Text → Nat → Prop
  | groups {groups : List Text} (four : groups.length = 4) (dec : ∀ g ∈ groups, DecGroup g)
      (range : ∀ g ∈ groups, stoi 10 g ≤ 255) :
      Ipv4Text (join '.' groups) (positional 256 (groups.map (stoi 10)))

/-- Four groups with another character for a dot, or with a number above 255. -/
def LooseIpv4 (s : Text) : Prop :=
  ∃ g₁ g₂ g₃ g₄ x y z, (∀ g ∈ [g₁, g₂, g₃, g₄], DecGroup g) ∧ isAny x = true ∧ isAny y = true ∧
    isAny z = true ∧ s = g₁ ++ x :: (g₂ ++ y :: (g₃ ++ z :: g₄)) ∧
      ¬(x = '.' ∧ y = '.' ∧ z = '.' ∧ ∀ g ∈ [g₁, g₂, g₃, g₄], stoi 10 g ≤ 255)

def Ipv4addrRight (s : Text) : Prop := Accepts ipv4addr Ipv4Text "Bad IPv4 address: ".toList s

/-! ## The pattern -/

theorem denotes_ipv4Pattern {s : Text} {c : Captures Char} :
    Denotes ipv4Pattern s c ↔
      ∃ (g₁ g₂ g₃ g₄ : Text) (x y z : Char), (∀ g ∈ [g₁, g₂, g₃, g₄], DecGroup g) ∧
        isAny x = true ∧ isAny y = true ∧ isAny z = true ∧
          s = g₁ ++ x :: (g₂ ++ y :: (g₃ ++ z :: g₄)) ∧ c = [(4, g₄), (3, g₃), (2, g₂), (1, g₁)] := by
  simp only [ipv4Pattern, denotes_ofItems, List.forall₂_cons_left_iff, List.forall₂_nil_left_iff,
    digits, Item.Takes]
  constructor
  · rintro ⟨-, ⟨g₁, -, one, ⟨-, -, ⟨x, dot, rfl⟩, ⟨g₂, -, two, ⟨-, -, ⟨y, dot', rfl⟩, ⟨g₃, -, three,
      ⟨-, -, ⟨z, dot'', rfl⟩, ⟨g₄, -, four, rfl, rfl⟩, rfl⟩, rfl⟩, rfl⟩, rfl⟩, rfl⟩, rfl⟩, rfl, rfl⟩
    have dec : ∀ g ∈ [g₁, g₂, g₃, g₄], DecGroup g := by
      simp only [List.forall_mem_cons]
      exact ⟨one, two, three, four, by simp⟩
    exact ⟨g₁, g₂, g₃, g₄, x, y, z, dec, dot, dot', dot'', by simp, rfl⟩
  · rintro ⟨g₁, g₂, g₃, g₄, x, y, z, dec, dot, dot', dot'', rfl, rfl⟩
    simp only [List.forall_mem_cons] at dec
    obtain ⟨one, two, three, four, -⟩ := dec
    exact ⟨_, ⟨g₁, _, one, ⟨[x], _, ⟨x, dot, rfl⟩, ⟨g₂, _, two, ⟨[y], _, ⟨y, dot', rfl⟩, ⟨g₃, _, three,
      ⟨[z], _, ⟨z, dot'', rfl⟩, ⟨g₄, _, four, rfl, rfl⟩, rfl⟩, rfl⟩, rfl⟩, rfl⟩, rfl⟩, rfl⟩,
      by simp, rfl⟩

/-- Digits contain no dot. -/
theorem DecGroup.count_dot {g : Text} (dec : DecGroup g) : g.count '.' = 0 := by
  refine List.count_eq_zero.mpr fun mem => ?_
  have digit := dec.2.2 _ mem
  exact absurd digit (by decide)

/-- All dots of a text that matches are between the groups. -/
theorem count_dots {g₁ g₂ g₃ g₄ : Text} {x y z : Char} (dec : ∀ g ∈ [g₁, g₂, g₃, g₄], DecGroup g) :
    (g₁ ++ x :: (g₂ ++ y :: (g₃ ++ z :: g₄))).count '.' =
      (if x = '.' then 1 else 0) + (if y = '.' then 1 else 0) + (if z = '.' then 1 else 0) := by
  simp only [List.forall_mem_cons] at dec
  obtain ⟨one, two, three, four, -⟩ := dec
  simp only [List.count_append, List.count_cons, one.count_dot, two.count_dot, three.count_dot,
    four.count_dot, beq_iff_eq]
  omega

theorem four_groups {groups : List Text} (four : groups.length = 4) :
    ∃ g₁ g₂ g₃ g₄, groups = [g₁, g₂, g₃, g₄] := by
  match groups, four with
  | [g₁, g₂, g₃, g₄], _ => exact ⟨g₁, g₂, g₃, g₄, rfl⟩

theorem match_ipv4 {g₁ g₂ g₃ g₄ : Text} {x y z : Char} (dec : ∀ g ∈ [g₁, g₂, g₃, g₄], DecGroup g)
    (dot : isAny x = true) (dot' : isAny y = true) (dot'' : isAny z = true) :
    ∃ m, fullMatch ipv4Pattern (g₁ ++ x :: (g₂ ++ y :: (g₃ ++ z :: g₄))) = some m :=
  fullMatch_isSome (denotes_ipv4Pattern.mpr ⟨g₁, g₂, g₃, g₄, x, y, z, dec, dot, dot', dot'', rfl, rfl⟩)

/-! ## What the constructor makes of a match -/

/-- A match is an address, or loose. -/
theorem ipv4addr_of_match {s : Text} {m : Captures Char} (found : fullMatch ipv4Pattern s = some m) :
    ∃ addr, ipv4addr s = .ok addr ∧ (Ipv4Text s addr.toNat ∨ LooseIpv4 s) := by
  obtain ⟨g₁, g₂, g₃, g₄, x, y, z, dec, dot, dot', dot'', rfl, rfl⟩ :=
    denotes_ipv4Pattern.mp (denotes_of_fullMatch found)
  refine ⟨(([g₁, g₂, g₃, g₄].map (stoi 10)).foldl (shiftIn 8) 0).setWidth 32, ?_, ?_⟩
  · simp only [ipv4addr, parseipv4address, found]
    rfl
  by_cases strict : x = '.' ∧ y = '.' ∧ z = '.' ∧ ∀ g ∈ [g₁, g₂, g₃, g₄], stoi 10 g ≤ 255
  · refine .inl ?_
    obtain ⟨rfl, rfl, rfl, range⟩ := strict
    have fit : ∀ n ∈ [g₁, g₂, g₃, g₄].map (stoi 10), n < 2 ^ 8 := by
      intro n mem
      obtain ⟨g, here, rfl⟩ := List.mem_map.mp mem
      exact Nat.lt_succ_of_le (range g here)
    have value := shiftIn_groups (by simp) fit
    have below : positional (2 ^ 8) ([g₁, g₂, g₃, g₄].map (stoi 10)) < 2 ^ 32 := by
      simpa using positional_lt fit
    have text : Ipv4Text (join '.' [g₁, g₂, g₃, g₄]) _ := .groups rfl dec range
    rw [BitVec.toNat_setWidth, value, Nat.mod_eq_of_lt below]
    simpa using text
  · exact .inr ⟨g₁, g₂, g₃, g₄, x, y, z, dec, dot, dot', dot'', rfl, strict⟩

theorem Ipv4Text.matches {s : Text} {n : Nat} (text : Ipv4Text s n) :
    ∃ m, fullMatch ipv4Pattern s = some m := by
  obtain ⟨four, dec, -⟩ := text
  obtain ⟨g₁, g₂, g₃, g₄, rfl⟩ := four_groups four
  simpa using match_ipv4 dec (by decide : isAny '.' = true) (by decide : isAny '.' = true)
    (by decide : isAny '.' = true)

theorem no_dot {groups : List Text} (dec : ∀ g ∈ groups, DecGroup g) : ∀ g ∈ groups, '.' ∉ g :=
  fun g mem => List.count_eq_zero.mp (dec g mem).count_dot

/-- The number is determined by the text. -/
theorem Ipv4Text.value {s : Text} {n : Nat} (text : Ipv4Text s n) :
    n = positional 256 ((s.splitOn '.').map (stoi 10)) := by
  obtain ⟨four, dec, range⟩ := text
  have some : _ ≠ [] := List.ne_nil_of_length_pos (by rw [four]; decide)
  rw [join, List.splitOn_intercalate '.' (no_dot dec) some]

theorem LooseIpv4.not_ipv4Text {s : Text} (loose : LooseIpv4 s) (n : Nat) : ¬Ipv4Text s n := by
  obtain ⟨g₁, g₂, g₃, g₄, x, y, z, dec, -, -, -, rfl, other⟩ := loose
  intro text
  generalize same : g₁ ++ x :: (g₂ ++ y :: (g₃ ++ z :: g₄)) = s at text
  obtain ⟨four, dec', range⟩ := text
  obtain ⟨h₁, h₂, h₃, h₄, rfl⟩ := four_groups four
  have dots := congrArg (List.count '.') same
  rw [count_dots dec] at dots
  have three : (join '.' [h₁, h₂, h₃, h₄]).count '.' = 3 := by
    simpa using count_dots dec' (x := '.') (y := '.') (z := '.')
  rw [three] at dots
  have all : x = '.' ∧ y = '.' ∧ z = '.' := by
    refine ⟨?_, ?_, ?_⟩ <;> by_contra not <;> simp only [not, if_false] at dots <;>
      split_ifs at dots <;> omega
  obtain ⟨rfl, rfl, rfl⟩ := all
  have groups : [g₁, g₂, g₃, g₄] = [h₁, h₂, h₃, h₄] :=
    join_injective (by simp) (by simp) (no_dot dec) (no_dot dec') (by simpa using same)
  exact other ⟨rfl, rfl, rfl, groups ▸ range⟩

/-! ## The exact condition -/

/-- **The constructor is right about a text, unless it is four groups with another character for a dot or
a number above 255.** -/
theorem ipv4addrRight_iff (s : Text) : Ipv4addrRight s ↔ ¬LooseIpv4 s := by
  refine accepts_iff ?_ (fun k k' text text' => text.value.trans text'.value.symm)
    LooseIpv4.not_ipv4Text
  cases found : fullMatch ipv4Pattern s with
  | none =>
      refine .inl ⟨by simp [ipv4addr, parseipv4address, found, Except.map], fun k text => ?_,
        fun loose => ?_⟩
      · obtain ⟨m, some⟩ := text.matches
        simp [found] at some
      · obtain ⟨g₁, g₂, g₃, g₄, x, y, z, dec, dot, dot', dot'', rfl, -⟩ := loose
        obtain ⟨m, some⟩ := match_ipv4 dec dot dot' dot''
        simp [found] at some
  | some m => exact .inr (ipv4addr_of_match found)

/-! ## Printed addresses -/

theorem ipv4Octets_value (addr : Ipv4addr) :
    positional 256 ((ipv4Octets addr).map BitVec.toNat) = addr.toNat := by
  have bound := addr.isLt
  simp (disch := decide) only [ipv4Octets, List.map_cons, List.map_nil, cut_toNat, positional,
    List.foldl_cons, List.foldl_nil]
  omega

theorem printIpv4addr_text (addr : Ipv4addr) : Ipv4Text (printIpv4addr addr) addr.toNat := by
  have group : ∀ g ∈ (ipv4Octets addr).map fun o => decimal o.toNat, DecGroup g ∧ stoi 10 g ≤ 255 := by
    intro g mem
    obtain ⟨o, -, rfl⟩ := List.mem_map.mp mem
    obtain ⟨least, most, each, value⟩ := decimal_octet o.toNat o.isLt
    have bound := o.isLt
    exact ⟨⟨least, most, List.all_eq_true.mp each⟩, by omega⟩
  have text : Ipv4Text (join '.' _) _ :=
    .groups rfl (fun g mem => (group g mem).1) fun g mem => (group g mem).2
  have values : ((ipv4Octets addr).map fun o => decimal o.toNat).map (stoi 10) =
      (ipv4Octets addr).map BitVec.toNat := by
    rw [List.map_map]
    exact List.map_congr_left fun o _ => (decimal_octet o.toNat o.isLt).2.2.2
  rw [values, ipv4Octets_value] at text
  exact text

theorem ipv4addr_of_text {s : Text} {addr : Ipv4addr} (text : Ipv4Text s addr.toNat) :
    ipv4addr s = .ok addr := by
  have strict : ¬LooseIpv4 s := fun loose => loose.not_ipv4Text _ text
  exact (((ipv4addrRight_iff s).mpr strict).1 addr).mpr text

/-- **A constructor of `ethaddr` or `ipv4addr` accepts exactly the texts of addresses, unless characters
stand for dots or a number is above 255; and what is printed is read back.** -/
theorem addressTexts_iff (s : Text) (mac : Ethaddr) (addr : Ipv4addr) :
    (EthaddrRight s ↔ ¬LooseDots s) ∧ (Ipv4addrRight s ↔ ¬LooseIpv4 s) ∧
      ethaddr (printEthaddr mac) = .ok mac ∧ ipv4addr (printIpv4addr addr) = .ok addr :=
  ⟨ethaddrRight_iff s, ipv4addrRight_iff s, ethaddr_print mac,
    ipv4addr_of_text (printIpv4addr_text addr)⟩

/-- Characters for dots, and a number above 255. -/
theorem addressTexts_loose :
    ¬EthaddrRight "0011x2233y4455".toList ∧ ¬Ipv4addrRight "1x2y3z4".toList ∧
      ¬Ipv4addrRight "1.2.3.256".toList := by
  refine ⟨fun right => ?_, fun right => ?_, fun right => ?_⟩
  · exact (ethaddrRight_iff _).mp right
      ⟨"0011".toList, "2233".toList, "4455".toList, 'x', 'y', by decide, by decide, by decide, rfl, rfl,
        rfl, by decide⟩
  · exact (ipv4addrRight_iff _).mp right
      ⟨"1".toList, "2".toList, "3".toList, "4".toList, 'x', 'y', 'z', by decide, rfl, rfl, rfl, rfl,
        by decide⟩
  · exact (ipv4addrRight_iff _).mp right
      ⟨"1".toList, "2".toList, "3".toList, "256".toList, '.', '.', '.', by decide, rfl, rfl, rfl, rfl,
        by decide⟩

/-! ## Classes of addresses -/

/-- The pattern is parsed on each call. -/
def comparePrefix (pattern : Text) (value : Ipv4addr) (subnet : Nat) : Except AddressError Bool := do
  let bitPattern ← ipv4addr pattern
  let shift := 32 - subnet
  return bitPattern >>> shift == value >>> shift

/-- An exception leaves a function that is `noexcept`, and the program is terminated. -/
def isPrivate (addr : Ipv4addr) : Except AddressError Bool := do
  if ← comparePrefix "10.0.0.0".toList addr 8 then return true
  else if ← comparePrefix "172.16.0.0".toList addr 12 then return true
  else comparePrefix "192.168.0.0.".toList addr 16

def isLoopback (addr : Ipv4addr) : Except AddressError Bool :=
  comparePrefix "127.0.0.0".toList addr 8

def isMulticast (addr : Ipv4addr) : Except AddressError Bool :=
  comparePrefix "224.0.0.0".toList addr 4

/-- The first `subnet` bits of the address are those of the network. -/
def InNetwork (network : Ipv4addr) (subnet : Nat) (addr : Ipv4addr) : Prop :=
  ∀ i < subnet, addr.getMsbD i = network.getMsbD i

instance (network : Ipv4addr) (subnet : Nat) (addr : Ipv4addr) :
    Decidable (InNetwork network subnet addr) :=
  inferInstanceAs (Decidable (∀ i < subnet, _))

/-- The three functions return, and answer membership in the networks of their class. -/
def Classified (addr : Ipv4addr) : Prop :=
  isPrivate addr = .ok (decide (InNetwork 0x0a000000 8 addr ∨ InNetwork 0xac100000 12 addr ∨
      InNetwork 0xc0a80000 16 addr)) ∧
    isLoopback addr = .ok (decide (InNetwork 0x7f000000 8 addr)) ∧
      isMulticast addr = .ok (decide (InNetwork 0xe0000000 4 addr))

theorem shifts_eq_iff {network addr : Ipv4addr} {subnet : Nat} (size : subnet ≤ 32) :
    network >>> (32 - subnet) = addr >>> (32 - subnet) ↔ InNetwork network subnet addr := by
  constructor
  · intro same i bound
    have bit := congrArg (fun v : Ipv4addr => v.getMsbD (i + (32 - subnet))) same
    have inside : i + (32 - subnet) < 32 := by omega
    simpa [inside, eq_comm] using bit
  · intro within
    refine BitVec.eq_of_getMsbD_eq fun i bound => ?_
    simp only [BitVec.getMsbD_ushiftRight]
    by_cases zero : i < 32 - subnet
    · simp [zero]
    · rw [within (i - (32 - subnet)) (by omega)]

theorem comparePrefix_eq {pattern : Text} {network : Ipv4addr}
    (parsed : ipv4addr pattern = .ok network) {subnet : Nat} (size : subnet ≤ 32) (addr : Ipv4addr) :
    comparePrefix pattern addr subnet = .ok (decide (InNetwork network subnet addr)) := by
  simp only [comparePrefix, parsed, bind, Except.bind, pure, Except.pure]
  rw [Except.ok.injEq, Bool.eq_iff_iff, beq_iff_eq, decide_eq_true_iff, shifts_eq_iff size]

/-- A text with four dots is refused. -/
theorem fourDots_refused : fullMatch ipv4Pattern "192.168.0.0.".toList = none := by
  refine fullMatch_eq_none fun c denotes => ?_
  obtain ⟨g₁, g₂, g₃, g₄, x, y, z, dec, -, -, -, same, -⟩ := denotes_ipv4Pattern.mp denotes
  have dots := congrArg (List.count '.') same
  have four : "192.168.0.0.".toList.count '.' = 4 := by decide
  rw [count_dots dec, four] at dots
  split_ifs at dots <;> omega

/-- A printed pattern is parsed as the network it was printed of. -/
theorem network_parsed {network : Ipv4addr} {pattern : Text}
    (printed : printIpv4addr network = pattern) : ipv4addr pattern = .ok network :=
  printed ▸ ipv4addr_of_text (printIpv4addr_text network)

theorem isLoopback_eq (addr : Ipv4addr) :
    isLoopback addr = .ok (decide (InNetwork 0x7f000000 8 addr)) :=
  comparePrefix_eq (network_parsed (by decide)) (by decide) addr

theorem isMulticast_eq (addr : Ipv4addr) :
    isMulticast addr = .ok (decide (InNetwork 0xe0000000 4 addr)) :=
  comparePrefix_eq (network_parsed (by decide)) (by decide) addr

/-- The third prefix is not parsed. -/
theorem isPrivate_eq (addr : Ipv4addr) :
    isPrivate addr =
      if InNetwork 0x0a000000 8 addr ∨ InNetwork 0xac100000 12 addr then .ok true
      else .error (.badRepresentation "Bad IPv4 address: 192.168.0.0.".toList) := by
  have ten : comparePrefix "10.0.0.0".toList addr 8 = .ok (decide (InNetwork 0x0a000000 8 addr)) :=
    comparePrefix_eq (network_parsed (by decide)) (by decide) addr
  have oneSevenTwo : comparePrefix "172.16.0.0".toList addr 12 =
      .ok (decide (InNetwork 0xac100000 12 addr)) :=
    comparePrefix_eq (network_parsed (by decide)) (by decide) addr
  have refused : comparePrefix "192.168.0.0.".toList addr 16 =
      .error (.badRepresentation "Bad IPv4 address: 192.168.0.0.".toList) := by
    simp only [comparePrefix, ipv4addr, parseipv4address, fourDots_refused]
    rfl
  simp only [isPrivate, ten, oneSevenTwo, refused, bind, Except.bind, pure, Except.pure,
    decide_eq_true_iff]
  by_cases first : InNetwork 0x0a000000 8 addr
  · rw [if_pos first, if_pos (.inl first)]
  · rw [if_neg first]
    by_cases second : InNetwork 0xac100000 12 addr
    · rw [if_pos second, if_pos (.inr second)]
    · rw [if_neg second, if_neg (not_or.mpr ⟨first, second⟩)]

/-- **The three functions return and answer membership exactly for the addresses of the first two
private networks; for all others `is_private` is terminated.** -/
theorem classified_iff (addr : Ipv4addr) :
    Classified addr ↔ InNetwork 0x0a000000 8 addr ∨ InNetwork 0xac100000 12 addr := by
  rw [Classified, isLoopback_eq, isMulticast_eq, isPrivate_eq]
  by_cases first : InNetwork 0x0a000000 8 addr ∨ InNetwork 0xac100000 12 addr
  · rw [if_pos first]
    refine iff_of_true ⟨congrArg Except.ok (decide_eq_true ?_).symm, rfl, rfl⟩ first
    exact first.elim .inl fun second => .inr (.inl second)
  · rw [if_neg first]
    exact iff_of_false (fun classified => nomatch classified.1) first

/-- The address 0.0.0.0. -/
theorem classified_zero : ¬Classified 0 := by
  rw [Classified, isPrivate_eq, if_neg (by decide)]
  exact fun classified => nomatch classified.1

end Drunos.Types
