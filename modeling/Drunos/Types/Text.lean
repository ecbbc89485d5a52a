/-
# Drunos.Types.Text — what the parsers of addresses share

`ethaddr`, `ipv4addr` and `IPv6Addr` pick the groups of an address out of a text with a regular
expression, convert each one with `std::stoi`, and shift them into a number. The other way, they cut
the number with masks and shifts and print the parts. A `std::string` is a list of characters here; no
more is used of them than which class they belong to.
-/
import Drunos.Theory.Regex
import Mathlib.Data.BitVec
import Mathlib.Data.List.Induction
import Mathlib.Tactic.Ring

namespace Drunos.Types

set_option autoImplicit false

abbrev Text := List Char

/-- The exception of an address type, with its message, and that of `std::string::insert`. -/
inductive AddressError where
  | badRepresentation (message : Text)
  | outOfRange
  deriving DecidableEq

/-! ## Letters and numbers -/

/-- `[[:digit:]]`. -/
def isDigit (c : Char) : Bool := c.isDigit

/-- `[[:xdigit:]]`. -/
def isXdigit (c : Char) : Bool :=
  c.isDigit || ('a' ≤ c && c ≤ 'f') || ('A' ≤ c && c ≤ 'F')

/-- `.` of a regular expression: any character that does not end a line. -/
def isAny (c : Char) : Bool := c != '\n' && c != '\r'

def digitValue (c : Char) : Nat :=
  if c.isDigit then c.toNat - 48
  else if 'a' ≤ c then c.toNat - 87
  else c.toNat - 55

/-- The number with these digits, the highest one first. -/
def positional (base : Nat) (digits : List Nat) : Nat :=
  digits.foldl (fun n d => n * base + d) 0

/-- `std::stoi` of a text of digits. -/
def stoi (base : Nat) (digits : Text) : Nat := positional base (digits.map digitValue)

/-- `%u`. -/
def decimal (n : Nat) : Text := Nat.toDigits 10 n

/-- `%x`. -/
def hex (n : Nat) : Text := Nat.toDigits 16 n

/-- A minimal width, filled with zeros from the left. -/
def padded (width : Nat) (text : Text) : Text := List.replicate (width - text.length) '0' ++ text

theorem positional_concat (base : Nat) (digits : List Nat) (d : Nat) :
    positional base (digits ++ [d]) = positional base digits * base + d := by
  simp [positional]

theorem positional_append (base : Nat) (a b : List Nat) :
    positional base (a ++ b) = positional base a * base ^ b.length + positional base b := by
  induction b using List.reverseRecOn with
  | nil => simp [positional]
  | append_singleton b d ih =>
      rw [← List.append_assoc, positional_concat, positional_concat, ih, List.length_append,
        List.length_singleton]
      ring

theorem positional_lt {base : Nat} {digits : List Nat} (each : ∀ d ∈ digits, d < base) :
    positional base digits < base ^ digits.length := by
  induction digits using List.reverseRecOn with
  | nil => simp [positional]
  | append_singleton digits d ih =>
      have below := ih fun d mem => each d (List.mem_append_left _ mem)
      have last := each d (by simp)
      have rounds := Nat.mul_le_mul_right base (Nat.succ_le_of_lt below)
      rw [Nat.succ_mul] at rounds
      rw [positional_concat, List.length_append, List.length_singleton, Nat.pow_succ]
      omega

/-- Groups of `size` digits make the number of all their digits. -/
theorem positional_flatten {base size : Nat} {groups : List (List Nat)}
    (even : ∀ g ∈ groups, g.length = size) :
    positional (base ^ size) (groups.map (positional base)) = positional base groups.flatten := by
  induction groups using List.reverseRecOn with
  | nil => rfl
  | append_singleton groups g ih =>
      have here := even g (by simp)
      rw [List.map_append, positional_append, ih fun g mem => even g (List.mem_append_left _ mem),
        List.flatten_append, positional_append]
      simp [positional, here]

theorem digitValue_xdigit {c : Char} (hex : isXdigit c = true) : digitValue c < 16 := by
  simp only [isXdigit, Bool.or_eq_true, Bool.and_eq_true, decide_eq_true_eq, Char.isDigit_iff_toNat,
    Char.le_def, UInt32.le_iff_toNat_le] at hex
  simp only [digitValue, Char.isDigit_iff_toNat, Char.le_def, UInt32.le_iff_toNat_le]
  change ((48 ≤ c.toNat ∧ c.toNat ≤ 57) ∨ 97 ≤ c.toNat ∧ c.toNat ≤ 102) ∨ 65 ≤ c.toNat ∧ c.toNat ≤ 70
    at hex
  change (if 48 ≤ c.toNat ∧ c.toNat ≤ 57 then c.toNat - 48
    else if 97 ≤ c.toNat then c.toNat - 87 else c.toNat - 55) < 16
  split_ifs <;> omega

theorem stoi_lt {base : Nat} {digits : Text} (each : ∀ c ∈ digits, digitValue c < base) :
    stoi base digits < base ^ digits.length := by
  have below : ∀ d ∈ digits.map digitValue, d < base := by simpa using each
  simpa [stoi] using positional_lt below

theorem stoi_flatten {base size : Nat} {groups : List Text} (even : ∀ g ∈ groups, g.length = size) :
    positional (base ^ size) (groups.map (stoi base)) = stoi base groups.flatten := by
  have digits : (groups.map (·.map digitValue)).flatten = groups.flatten.map digitValue := by
    rw [List.map_flatten]
  have even' : ∀ g ∈ groups.map (·.map digitValue), g.length = size := by simpa using even
  rw [stoi, ← digits, ← positional_flatten even', List.map_map]
  rfl

theorem digitChar_xdigit : ∀ d < 16, isXdigit d.digitChar = true ∧ digitValue d.digitChar = d := by
  decide

/-- `%x` writes the digits of the number. -/
theorem hex_digits (n : Nat) : (∀ c ∈ hex n, isXdigit c = true) ∧ stoi 16 (hex n) = n := by
  induction n using Nat.strong_induction_on with
  | _ n ih =>
      have base : 1 < 16 := by decide
      rw [hex, Nat.toDigits_eq_if base]
      split_ifs with one
      · obtain ⟨digit, value⟩ := digitChar_xdigit n one
        exact ⟨by simpa using digit, by simp [stoi, positional, value]⟩
      · obtain ⟨digits, value⟩ := ih (n / 16) (by omega)
        obtain ⟨digit, last⟩ := digitChar_xdigit (n % 16) (Nat.mod_lt _ (by decide))
        rw [hex] at digits value
        refine ⟨fun c mem => ?_, ?_⟩
        · rcases List.mem_append.mp mem with before | here
          · exact digits c before
          · rw [List.mem_singleton.mp here, digit]
        · rw [stoi] at value
          rw [stoi, List.map_append, List.map_cons, List.map_nil, positional_concat, value, last]
          omega

theorem hex_octet : ∀ n < 256, (padded 2 (hex n)).length = 2 ∧
    (padded 2 (hex n)).all isXdigit = true ∧ stoi 16 (padded 2 (hex n)) = n := by
  decide +kernel

theorem decimal_octet : ∀ n < 256, 1 ≤ (decimal n).length ∧ (decimal n).length ≤ 3 ∧
    (decimal n).all isDigit = true ∧ stoi 10 (decimal n) = n := by
  decide +kernel

/-! ## Shifting groups into a number -/

/-- `res <<= w`, then `res |=` a group cast to `w` bits. -/
def shiftIn (w : Nat) (res : BitVec 64) (group : Nat) : BitVec 64 :=
  res <<< w ||| (BitVec.ofNat w group).setWidth 64

theorem shiftIn_toNat {w : Nat} {res : BitVec 64} (room : res.toNat * 2 ^ w < 2 ^ 64) (size : w ≤ 64)
    (group : Nat) : (shiftIn w res group).toNat = res.toNat * 2 ^ w + group % 2 ^ w := by
  have part : group % 2 ^ w < 2 ^ w := Nat.mod_lt _ (Nat.two_pow_pos w)
  have small : group % 2 ^ w < 2 ^ 64 :=
    Nat.lt_of_lt_of_le part (Nat.pow_le_pow_right (by decide) size)
  rw [shiftIn, BitVec.toNat_or, BitVec.toNat_shiftLeft, BitVec.toNat_setWidth, BitVec.toNat_ofNat,
    Nat.shiftLeft_eq, Nat.mod_eq_of_lt room, Nat.mod_eq_of_lt small, ← Nat.shiftLeft_eq,
    Nat.shiftLeft_add_eq_or_of_lt part]

theorem foldl_shiftIn {w : Nat} : ∀ {groups : List Nat} {res : BitVec 64} {used : Nat},
    res.toNat < 2 ^ used → used + groups.length * w ≤ 64 →
      (groups.foldl (shiftIn w) res).toNat =
        groups.foldl (fun n group => n * 2 ^ w + group % 2 ^ w) res.toNat := by
  intro groups
  induction groups with
  | nil => intros; rfl
  | cons group groups ih =>
      intro res used bound room
      rw [List.length_cons, Nat.add_mul, Nat.one_mul] at room
      have next : res.toNat * 2 ^ w < 2 ^ (used + w) := by
        rw [Nat.pow_add]
        exact Nat.mul_lt_mul_of_pos_right bound (Nat.two_pow_pos w)
      have inside : res.toNat * 2 ^ w < 2 ^ 64 :=
        Nat.lt_of_lt_of_le next (Nat.pow_le_pow_right (by decide) (by omega))
      have shifted := shiftIn_toNat inside (by omega) group
      have part : group % 2 ^ w < 2 ^ w := Nat.mod_lt _ (Nat.two_pow_pos w)
      have bound' : (shiftIn w res group).toNat < 2 ^ (used + w) := by
        rw [shifted, Nat.pow_add]
        have rounds : (res.toNat + 1) * 2 ^ w ≤ 2 ^ used * 2 ^ w :=
          Nat.mul_le_mul_right _ bound
        rw [Nat.add_mul, Nat.one_mul] at rounds
        omega
      rw [List.foldl_cons, List.foldl_cons, ih bound' (by omega), shifted]

/-- Groups that fit into their bits make the number that has them as its digits. -/
theorem shiftIn_groups {w : Nat} {groups : List Nat} (room : groups.length * w ≤ 64)
    (fit : ∀ group ∈ groups, group < 2 ^ w) :
    (groups.foldl (shiftIn w) 0).toNat = positional (2 ^ w) groups := by
  have start : (0 : BitVec 64).toNat < 2 ^ 0 := by decide
  rw [foldl_shiftIn start (by omega), positional]
  exact List.foldl_ext _ _ _ fun n group mem => by rw [Nat.mod_eq_of_lt (fit group mem)]

/-! ## Cutting a number -/

/-- The bits under the mask, shifted down and cast to `w` bits. -/
def cut (w : Nat) {n : Nat} (num mask : BitVec n) (shift : Nat) : BitVec w :=
  ((num &&& mask) >>> shift).setWidth w

theorem cut_toNat {w n : Nat} {num mask : BitVec n} {shift : Nat}
    (whole : (mask >>> shift).setWidth w = BitVec.allOnes w) :
    (cut w num mask shift).toNat = num.toNat / 2 ^ shift % 2 ^ w := by
  rw [cut, BitVec.ushiftRight_and_distrib, BitVec.setWidth_and, whole, BitVec.and_allOnes,
    BitVec.toNat_setWidth, BitVec.toNat_ushiftRight, Nat.shiftRight_eq_div_pow]

/-! ## Groups between separators -/

def join (sep : Char) (groups : List Text) : Text := [sep].intercalate groups

@[simp] theorem join_singleton (sep : Char) (g : Text) : join sep [g] = g :=
  List.intercalate_singleton

@[simp] theorem join_cons_cons (sep : Char) (g g' : Text) (groups : List Text) :
    join sep (g :: g' :: groups) = g ++ sep :: join sep (g' :: groups) := by
  simp [join, List.intercalate_cons_cons]

theorem join_append (sep : Char) : ∀ {a b : List Text}, a ≠ [] → b ≠ [] →
    join sep (a ++ b) = join sep a ++ sep :: join sep b
  | [], _, absent, _ => (absent rfl).elim
  | [g], [], _, absent => (absent rfl).elim
  | [g], g' :: groups, _, _ => by simp
  | g :: g' :: groups, b, _, present => by
      have rest := join_append sep (List.cons_ne_nil g' groups) present
      rw [List.cons_append] at rest
      simp [rest]

/-- Each group and the separator behind it. -/
theorem flatten_behind (sep : Char) : ∀ {groups : List Text}, groups ≠ [] →
    (groups.map (· ++ [sep])).flatten = join sep groups ++ [sep]
  | [], absent => (absent rfl).elim
  | [g], _ => by simp
  | g :: g' :: groups, _ => by
      have rest := flatten_behind sep (List.cons_ne_nil g' groups)
      rw [List.map_cons, List.flatten_cons, rest]
      simp

/-- Each group and the separator in front of it. -/
theorem flatten_before (sep : Char) : ∀ {groups : List Text}, groups ≠ [] →
    (groups.map (sep :: ·)).flatten = sep :: join sep groups
  | [], absent => (absent rfl).elim
  | [g], _ => by simp
  | g :: g' :: groups, _ => by
      have rest := flatten_before sep (List.cons_ne_nil g' groups)
      rw [List.map_cons, List.flatten_cons, rest]
      simp

theorem count_join {sep : Char} : ∀ {groups : List Text}, (∀ g ∈ groups, sep ∉ g) →
    (join sep groups).count sep = groups.length - 1
  | [], _ => rfl
  | [g], without => by simpa using List.count_eq_zero.mpr (without g (by simp))
  | g :: g' :: groups, without => by
      obtain ⟨first, others⟩ := List.forall_mem_cons.mp without
      rw [join_cons_cons, List.count_append, List.count_cons_self, count_join others,
        List.count_eq_zero.mpr first]
      simp

/-- Groups are found again between the separators. -/
theorem join_injective {sep : Char} {a b : List Text} (some : a ≠ []) (some' : b ≠ [])
    (without : ∀ g ∈ a, sep ∉ g) (without' : ∀ g ∈ b, sep ∉ g) (same : join sep a = join sep b) :
    a = b := by
  rw [← List.splitOn_intercalate sep without some, ← List.splitOn_intercalate sep without' some']
  exact congrArg _ same

/-- Without the separators the groups are left. -/
theorem filter_join {sep : Char} {p : Char → Bool} (mark : p sep = false) : ∀ {groups : List Text},
    (∀ g ∈ groups, ∀ c ∈ g, p c = true) → (join sep groups).filter p = groups.flatten
  | [], _ => rfl
  | [g], each => by simpa using each
  | g :: g' :: groups, each => by
      obtain ⟨first, others⟩ := List.forall_mem_cons.mp each
      rw [join_cons_cons, List.filter_append, List.filter_eq_self.mpr first, List.filter_cons, mark,
        filter_join mark others, List.flatten_cons]
      simp

theorem length_join (sep : Char) {size : Nat} : ∀ {groups : List Text},
    (∀ g ∈ groups, g.length = size) →
      (join sep groups).length = groups.length * size + (groups.length - 1)
  | [], _ => by simp [join]
  | [g], each => by simpa using each
  | g :: g' :: groups, each => by
      obtain ⟨first, others⟩ := List.forall_mem_cons.mp each
      have rest := length_join sep others
      rw [join_cons_cons, List.length_append, List.length_cons, rest, first]
      simp only [List.length_cons]
      rw [Nat.succ_mul (groups.length + 1) size]
      omega

/-! ## What a constructor accepts -/

/-- The constructor of an address accepts the text with its number if it is one of the grammar, and
refuses it otherwise. -/
def Accepts {n : Nat} (construct : Text → Except AddressError (BitVec n))
    (grammar : Text → Nat → Prop) (message s : Text) : Prop :=
  (∀ addr, construct s = .ok addr ↔ grammar s addr.toNat) ∧
    ((∀ k, ¬grammar s k) → construct s = .error (.badRepresentation (message ++ s)))

/-- A constructor that accepts some texts too many is right about all others. -/
theorem accepts_iff {n : Nat} {construct : Text → Except AddressError (BitVec n)}
    {grammar : Text → Nat → Prop} {message s : Text} {loose : Prop}
    (outcome : construct s = .error (.badRepresentation (message ++ s)) ∧
        (∀ k, ¬grammar s k) ∧ ¬loose ∨
      ∃ addr, construct s = .ok addr ∧ (grammar s addr.toNat ∨ loose))
    (value : ∀ k k', grammar s k → grammar s k' → k = k') (apart : loose → ∀ k, ¬grammar s k) :
    Accepts construct grammar message s ↔ ¬loose := by
  rcases outcome with ⟨refused, none, strict⟩ | ⟨addr, ok, accepted⟩
  · refine iff_of_true ⟨fun addr => ?_, fun _ => refused⟩ strict
    simp [refused, none]
  · constructor
    · rintro ⟨accepts, -⟩ lax
      exact apart lax _ ((accepts addr).mp ok)
    · intro strict
      have text := accepted.resolve_right strict
      refine ⟨fun addr' => ⟨fun ok' => ?_, fun text' => ?_⟩, fun none => (none _ text).elim⟩
      · obtain rfl : addr = addr' := by simpa [ok] using ok'
        exact text
      · rw [ok, BitVec.eq_of_toNat_eq (value _ _ text text')]

end Drunos.Types
