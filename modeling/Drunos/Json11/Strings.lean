/-
# Drunos.Json11.Strings — strings of a JSON text

A `std::string` is the list of its bytes. `dump` escapes what may not stand in a string of
a JSON text, control characters by their code point and the two line separators of Unicode
too. `parse_string` reads the pieces of a string (`Pieces`), and puts escaped code points
into UTF-8, two surrogates as one (`decode`). It reads what has pieces
(`scanChars_pieces`) and nothing else (`scanChars_sound`), and every string that is dumped
has pieces (`dumpChars_pieces`).
-/
import Mathlib.Data.BitVec
import Mathlib.Data.List.Basic
import Mathlib.Tactic.SplitIfs

namespace Drunos.Json11

set_option autoImplicit false

/-! ## Bytes -/

/-- A `char`. -/
abbrev Byte := BitVec 8

def byte (c : Char) : Byte := BitVec.ofNat 8 c.toNat

def text (s : String) : List Byte := s.toList.map byte

def quote : Byte := byte '\x22'

def backslash : Byte := byte '\x5c'

def inRange (x lower upper : Int) : Bool := lower ≤ x ∧ x ≤ upper

/-- Characters are signed. -/
def within (ch : Byte) (lower upper : Char) : Bool := inRange ch.toInt lower.toNat upper.toNat

def isDigit (ch : Byte) : Bool := within ch '0' '9'

def isXdigit (ch : Byte) : Bool := within ch 'a' 'f' || within ch 'A' 'F' || isDigit ch

/-- `%d` of a number that is not negative. -/
def decimal (n : Nat) : List Byte := (Nat.toDigits 10 n).map byte

/-- `%d`. -/
def signed (n : Int) : List Byte :=
  if n < 0 then byte '-' :: decimal n.natAbs else decimal n.natAbs

def esc (c : Byte) : List Byte :=
  if 0x20 ≤ c.toNat ∧ c.toNat ≤ 0x7f then
    text "'" ++ [c] ++ text "' (" ++ signed c.toInt ++ text ")"
  else text "(" ++ signed c.toInt ++ text ")"

/-! ## Writing -/

/-- A digit of `%x`. -/
def hexDigit (n : Nat) : Byte := byte n.digitChar

def escape (ch : Byte) : List Byte :=
  if ch = backslash then [backslash, backslash]
  else if ch = quote then [backslash, quote]
  else if ch = byte '\x08' then [backslash, byte 'b']
  else if ch = byte '\x0c' then [backslash, byte 'f']
  else if ch = byte '\n' then [backslash, byte 'n']
  else if ch = byte '\r' then [backslash, byte 'r']
  else if ch = byte '\t' then [backslash, byte 't']
  else if ch.toNat ≤ 0x1f then
    [backslash, byte 'u', byte '0', byte '0', hexDigit (ch.toNat / 16), hexDigit (ch.toNat % 16)]
  else [ch]

/-- The loop of `dump` over a string, where the next bytes are skipped. -/
def dumpChars : Nat → List Byte → List Byte
  | _, [] => []
  | skip + 1, _ :: value => dumpChars skip value
  | 0, ch :: value =>
      if ch = 0xe2 ∧ value.take 2 = [0x80, 0xa8] then
        [backslash, byte 'u', byte '2', byte '0', byte '2', byte '8'] ++ dumpChars 2 value
      else if ch = 0xe2 ∧ value.take 2 = [0x80, 0xa9] then
        [backslash, byte 'u', byte '2', byte '0', byte '2', byte '9'] ++ dumpChars 2 value
      else escape ch ++ dumpChars 0 value

def dumpString (value : List Byte) : List Byte := quote :: dumpChars 0 value ++ [quote]

/-! ## Reading -/

/-- `encode_utf8` -/
def encodeUtf8 (pt : Nat) : List Byte :=
  if pt < 0x80 then [BitVec.ofNat 8 pt]
  else if pt < 0x800 then
    [BitVec.ofNat 8 (pt >>> 6 ||| 0xc0), BitVec.ofNat 8 (pt &&& 0x3f ||| 0x80)]
  else if pt < 0x10000 then
    [BitVec.ofNat 8 (pt >>> 12 ||| 0xe0), BitVec.ofNat 8 (pt >>> 6 &&& 0x3f ||| 0x80),
      BitVec.ofNat 8 (pt &&& 0x3f ||| 0x80)]
  else
    [BitVec.ofNat 8 (pt >>> 18 ||| 0xf0), BitVec.ofNat 8 (pt >>> 12 &&& 0x3f ||| 0x80),
      BitVec.ofNat 8 (pt >>> 6 &&& 0x3f ||| 0x80), BitVec.ofNat 8 (pt &&& 0x3f ||| 0x80)]

def hexValue (ch : Byte) : Nat :=
  if isDigit ch then ch.toNat - 48
  else if within ch 'a' 'f' then ch.toNat - 87
  else ch.toNat - 55

/-- `strtol` of hexadecimal digits. -/
def codepoint (digits : List Byte) : Nat := digits.foldl (fun n ch => n * 16 + hexValue ch) 0

def isLead (pt : Nat) : Bool := 0xd800 ≤ pt ∧ pt ≤ 0xdbff

def isTrail (pt : Nat) : Bool := 0xdc00 ≤ pt ∧ pt ≤ 0xdfff

/-- The code point of two surrogates. -/
def surrogates (lead trail : Nat) : Nat := ((lead - 0xd800) <<< 10 ||| (trail - 0xdc00)) + 0x10000

/-- The last escaped code point is not written yet. `none` is -1. -/
def flush (last : Option Nat) : List Byte := last.elim [] encodeUtf8

def simpleEscape (ch : Byte) : Option Byte :=
  if ch = byte 'b' then some (byte '\x08')
  else if ch = byte 'f' then some (byte '\x0c')
  else if ch = byte 'n' then some (byte '\n')
  else if ch = byte 'r' then some (byte '\r')
  else if ch = byte 't' then some (byte '\t')
  else if ch = quote ∨ ch = backslash ∨ ch = byte '/' then some ch
  else none

/-- A part of a string: a character, or a code point that was escaped. -/
inductive Piece where
  | char (ch : Byte)
  | code (pt : Nat)

/-- What a pass of the loop of `parse_string` reads, and how long it is. -/
inductive Next where
  | close
  | piece (piece : Piece) (length : Nat)
  | failed (message : List Byte) (length : Nat)

def nextPiece : List Byte → Next
  | [] => .failed (text "unexpected end of input in string") 0
  | ch :: str =>
      if ch = quote then .close
      else if inRange ch.toInt 0 0x1f then .failed (text "unescaped " ++ esc ch ++ text " in string") 1
      else if ch ≠ backslash then .piece (.char ch) 1
      else
        match str with
        | [] => .failed (text "unexpected end of input in string") 1
        | ch :: str =>
            if ch = byte 'u' then
              -- behind the end of `esc` there is no digit
              let esc := str.take 4
              if esc.length = 4 && esc.all isXdigit then .piece (.code (codepoint esc)) 6
              else .failed (text "bad \\u escape: " ++ esc) 2
            else
              match simpleEscape ch with
              | some written => .piece (.char written) 2
              | none => .failed (text "invalid escape character " ++ esc ch) 2

/-- What the pass writes. -/
def Piece.put (out : List Byte) (last : Option Nat) : Piece → List Byte × Option Nat
  | char ch => (out ++ flush last ++ [ch], none)
  | code pt =>
      match last with
      | some lead =>
          if isLead lead && isTrail pt then (out ++ encodeUtf8 (surrogates lead pt), none)
          else (out ++ encodeUtf8 lead, some pt)
      | none => (out, some pt)

/-- What `parse_string` returns, or the message it fails with, and how far it has read. -/
structure Scanned where
  outcome : Except (List Byte) (List Byte)
  length : Nat

def Scanned.behind (n : Nat) (s : Scanned) : Scanned := ⟨s.outcome, s.length + n⟩

/-- The loop of `parse_string`, where the next bytes have been read. -/
def scanChars : Nat → List Byte → Option Nat → List Byte → Scanned
  | read + 1, out, last, _ :: str => (scanChars read out last str).behind 1
  | 0, out, last, ch :: str =>
      match nextPiece (ch :: str) with
      | .close => ⟨.ok (out ++ flush last), 1⟩
      | .piece piece n => (scanChars (n - 1) (piece.put out last).1 (piece.put out last).2 str).behind 1
      | .failed message n => ⟨.error message, n⟩
  | _, _, _, [] => ⟨.error (text "unexpected end of input in string"), 0⟩

/-! ## Pieces of a string -/

/-- It stands for itself in a string of a JSON text. -/
structure Plain (ch : Byte) : Prop where
  quote : ch ≠ quote
  backslash : ch ≠ backslash
  control : 0x20 ≤ ch.toNat

/-- The text of a piece. -/
inductive IsPiece : List Byte → Piece → Prop
  | plain {ch : Byte} (plain : Plain ch) : IsPiece [ch] (.char ch)
  | simple {ch written : Byte} (escape : simpleEscape ch = some written) :
      IsPiece [backslash, ch] (.char written)
  | code {esc : List Byte} (four : esc.length = 4) (digits : esc.all isXdigit = true) :
      IsPiece (backslash :: byte 'u' :: esc) (.code (codepoint esc))

/-- The text between two quotes has these pieces. -/
inductive Pieces : List Byte → List Piece → Prop
  | nil : Pieces [] []
  | cons {front str : List Byte} {piece : Piece} {pieces : List Piece} (first : IsPiece front piece)
      (rest : Pieces str pieces) : Pieces (front ++ str) (piece :: pieces)

/-- The string that the pieces stand for. -/
def decode : List Piece → List Byte
  | [] => []
  | .char ch :: pieces => ch :: decode pieces
  | .code lead :: .code trail :: pieces =>
      if isLead lead && isTrail trail then encodeUtf8 (surrogates lead trail) ++ decode pieces
      else encodeUtf8 lead ++ decode (.code trail :: pieces)
  | .code pt :: pieces => encodeUtf8 pt ++ decode pieces

/-- The piece of a code point that is not written yet. -/
def pending (last : Option Nat) : List Piece := last.toList.map .code

theorem decode_nil (last : Option Nat) : decode (pending last) = flush last := by
  cases last with
  | none => rfl
  | some pt => exact List.append_nil _

/-- What is written of a piece is a part of the string. -/
theorem decode_put (out : List Byte) (last : Option Nat) (piece : Piece) (pieces : List Piece) :
    (piece.put out last).1 ++ decode (pending (piece.put out last).2 ++ pieces) =
      out ++ decode (pending last ++ piece :: pieces) := by
  cases piece with
  | char ch =>
      have same : decode (pending last ++ .char ch :: pieces) = flush last ++ ch :: decode pieces := by
        cases last <;> rfl
      rw [same]
      simp [Piece.put, pending]
  | code pt =>
      cases last with
      | none => rfl
      | some lead =>
          have same : decode (pending (some lead) ++ .code pt :: pieces) =
              if isLead lead && isTrail pt then encodeUtf8 (surrogates lead pt) ++ decode pieces
              else encodeUtf8 lead ++ decode (.code pt :: pieces) := decode.eq_3 ..
          rw [same, Piece.put]
          split
          · simp [pending]
          · simp [pending]

theorem control_iff (ch : Byte) : inRange ch.toInt 0 0x1f = true ↔ ch.toNat < 0x20 := by
  rw [inRange, decide_eq_true_iff, BitVec.toInt_eq_toNat_cond]
  have := ch.isLt
  split <;> omega

theorem nextPiece_escape (str : List Byte) :
    nextPiece (backslash :: str) =
      match str with
      | [] => .failed (text "unexpected end of input in string") 1
      | ch :: str =>
          if ch = byte 'u' then
            if (str.take 4).length = 4 && (str.take 4).all isXdigit then
              .piece (.code (codepoint (str.take 4))) 6
            else .failed (text "bad \\u escape: " ++ str.take 4) 2
          else
            match simpleEscape ch with
            | some written => .piece (.char written) 2
            | none => .failed (text "invalid escape character " ++ esc ch) 2 := by
  rw [nextPiece.eq_def]
  exact (if_neg (by decide)).trans ((if_neg (by decide)).trans (if_neg (not_not.mpr rfl)))

theorem nextPiece_plain {ch : Byte} (plain : ch ≠ backslash) (str : List Byte) :
    nextPiece (ch :: str) =
      if ch = quote then .close
      else if inRange ch.toInt 0 0x1f then .failed (text "unescaped " ++ esc ch ++ text " in string") 1
      else .piece (.char ch) 1 := by
  rw [nextPiece.eq_def]
  simp only [if_pos plain]

theorem nextPiece_quote (str : List Byte) : nextPiece (quote :: str) = .close := by
  rw [nextPiece_plain (by decide), if_pos rfl]

/-- A piece is read. -/
theorem IsPiece.next {front : List Byte} {piece : Piece} (is : IsPiece front piece) (str : List Byte) :
    nextPiece (front ++ str) = .piece piece front.length := by
  cases is with
  | @plain ch plain =>
      have control : ¬inRange ch.toInt 0 0x1f = true := (control_iff _).not.mpr (Nat.not_lt.mpr plain.control)
      rw [List.singleton_append, nextPiece_plain plain.backslash, if_neg plain.quote, if_neg control,
        List.length_singleton]
  | @simple ch written escape =>
      have notU : ch ≠ byte 'u' := by
        rintro rfl
        have none : simpleEscape (byte 'u') = none := by decide
        simp [none] at escape
      rw [List.cons_append, nextPiece_escape]
      simp only [List.cons_append, if_neg notU, escape]
      rfl
  | @code esc four digits =>
      have own : ((esc ++ str).take 4) = esc := List.take_left' four
      rw [List.cons_append, nextPiece_escape]
      simp [own, four, digits]

/-- Of what is no piece, nothing is read. -/
theorem nextPiece_piece {str : List Byte} {piece : Piece} {n : Nat}
    (next : nextPiece str = .piece piece n) :
    ∃ front rest, str = front ++ rest ∧ n = front.length ∧ IsPiece front piece := by
  cases str with
  | nil => cases next
  | cons ch str =>
      by_cases escaped : ch = backslash
      · subst escaped
        rw [nextPiece_escape] at next
        cases str with
        | nil => cases next
        | cons ch str =>
            dsimp only at next
            split at next
            · subst ch
              split at next
              · rename_i digits
                obtain ⟨four, digits⟩ := Bool.and_eq_true_iff.mp digits
                obtain ⟨rfl, rfl⟩ := Next.piece.inj next
                have four := of_decide_eq_true four
                refine ⟨backslash :: byte 'u' :: str.take 4, str.drop 4, by simp, ?_, .code four digits⟩
                rw [List.length_cons, List.length_cons, four]
              · cases next
            · split at next
              · rename_i written escape
                obtain ⟨rfl, rfl⟩ := Next.piece.inj next
                exact ⟨[backslash, ch], str, rfl, rfl, .simple escape⟩
              · cases next
      · rw [nextPiece_plain escaped] at next
        split at next
        · cases next
        · rename_i unquoted
          split at next
          · cases next
          · rename_i control
            obtain ⟨rfl, rfl⟩ := Next.piece.inj next
            refine ⟨[ch], str, rfl, rfl, .plain ⟨unquoted, escaped, ?_⟩⟩
            rw [control_iff] at control
            exact Nat.not_lt.mp control

theorem nextPiece_close {str : List Byte} (next : nextPiece str = .close) : ∃ rest, str = quote :: rest := by
  cases str with
  | nil => cases next
  | cons ch str =>
      by_cases quoted : ch = quote
      · exact ⟨str, quoted ▸ rfl⟩
      · by_cases escaped : ch = backslash
        · subst escaped
          rw [nextPiece_escape] at next
          repeat' split at next
          all_goals cases next
        · rw [nextPiece_plain escaped, if_neg quoted] at next
          split at next <;> cases next

theorem IsPiece.length_pos {front : List Byte} {piece : Piece} (is : IsPiece front piece) :
    0 < front.length := by
  cases is <;> exact Nat.succ_pos _

theorem scanChars_read {front : List Byte} (out : List Byte) (last : Option Nat) (str : List Byte) :
    scanChars front.length out last (front ++ str) = (scanChars 0 out last str).behind front.length := by
  induction front with
  | nil => rfl
  | cons ch front ih =>
      rw [List.length_cons, List.cons_append, scanChars, ih]
      rfl

theorem scanChars_piece {front : List Byte} {piece : Piece} (is : IsPiece front piece)
    (out : List Byte) (last : Option Nat) (str : List Byte) :
    scanChars 0 out last (front ++ str) =
      (scanChars 0 (piece.put out last).1 (piece.put out last).2 str).behind front.length := by
  have next := is.next str
  cases front with
  | nil => exact absurd is.length_pos (Nat.lt_irrefl 0)
  | cons ch front =>
      rw [List.cons_append] at next ⊢
      rw [scanChars, next]
      simp only [List.length_cons, Nat.add_sub_cancel, scanChars_read]
      rfl

/-- **A string is read with its pieces.** -/
theorem scanChars_pieces {str : List Byte} {pieces : List Piece} (read : Pieces str pieces)
    (out : List Byte) (last : Option Nat) (rest : List Byte) :
    scanChars 0 out last (str ++ quote :: rest) =
      ⟨.ok (out ++ decode (pending last ++ pieces)), str.length + 1⟩ := by
  induction read generalizing out last with
  | nil =>
      rw [List.nil_append, scanChars, nextPiece_quote, List.append_nil, decode_nil]
      rfl
  | cons first _ ih =>
      rw [List.append_assoc, scanChars_piece first, ih, decode_put]
      simp [Scanned.behind, Nat.add_comm, Nat.add_left_comm]

/-- **What is read has pieces.** -/
theorem scanChars_sound {str out s : List Byte} {last : Option Nat}
    (read : (scanChars 0 out last str).outcome = .ok s) : ∃ body pieces rest,
      str = body ++ quote :: rest ∧ (scanChars 0 out last str).length = body.length + 1 ∧
        Pieces body pieces ∧ s = out ++ decode (pending last ++ pieces) := by
  induction size : str.length using Nat.strong_induction_on generalizing str out last with
  | _ size ih =>
    subst size
    cases str with
    | nil => cases read
    | cons ch str =>
        cases next : nextPiece (ch :: str) with
        | close =>
            obtain ⟨rest, same⟩ := nextPiece_close next
            rw [scanChars, next] at read ⊢
            obtain rfl := Except.ok.inj read
            exact ⟨[], [], rest, same, rfl, .nil, by rw [List.append_nil, decode_nil]⟩
        | failed message length =>
            rw [scanChars, next] at read
            cases read
        | piece piece length =>
            obtain ⟨front, rest, same, -, is⟩ := nextPiece_piece next
            rw [same, scanChars_piece is] at read ⊢
            have shorter : rest.length < (ch :: str).length := by
              rw [same, List.length_append]
              exact Nat.lt_add_of_pos_left is.length_pos
            obtain ⟨body, pieces, rest', rfl, length, read', rfl⟩ := ih _ shorter read rfl
            refine ⟨front ++ body, piece :: pieces, rest', ?_, ?_, .cons is read', decode_put ..⟩
            · rw [List.append_assoc]
            · simp only [Scanned.behind, length, List.length_append]
              omega

/-! ## Strings that are dumped -/

/-- A code point that is no surrogate stands for itself. -/
theorem decode_alone {pt : Nat} (alone : isLead pt = false) (pieces : List Piece) :
    decode (.code pt :: pieces) = encodeUtf8 pt ++ decode pieces := by
  cases pieces with
  | nil => rfl
  | cons piece pieces =>
      cases piece with
      | char ch => rfl
      | code trail => rw [decode, alone, Bool.false_and, if_neg Bool.false_ne_true]

theorem control_codepoint : ∀ n < 0x20,
    [byte '0', byte '0', hexDigit (n / 16), hexDigit (n % 16)].all isXdigit = true ∧
      codepoint [byte '0', byte '0', hexDigit (n / 16), hexDigit (n % 16)] = n ∧
        isLead n = false ∧ encodeUtf8 n = [BitVec.ofNat 8 n] := by
  decide

/-- A byte is escaped as one piece. -/
theorem escape_piece (ch : Byte) :
    ∃ piece, IsPiece (escape ch) piece ∧ ∀ pieces, decode (piece :: pieces) = ch :: decode pieces := by
  have simple {ch : Byte} (letter : Byte) (escaped : escape ch = [backslash, letter])
      (written : simpleEscape letter = some ch) :
      ∃ piece, IsPiece (escape ch) piece ∧ ∀ pieces, decode (piece :: pieces) = ch :: decode pieces :=
    ⟨.char ch, escaped ▸ .simple written, fun _ => rfl⟩
  by_cases isBackslash : ch = backslash
  · exact isBackslash ▸ simple backslash (by decide) (by decide)
  by_cases isQuote : ch = quote
  · exact isQuote ▸ simple quote (by decide) (by decide)
  by_cases isBs : ch = byte '\x08'
  · exact isBs ▸ simple (byte 'b') (by decide) (by decide)
  by_cases isFf : ch = byte '\x0c'
  · exact isFf ▸ simple (byte 'f') (by decide) (by decide)
  by_cases isLf : ch = byte '\n'
  · exact isLf ▸ simple (byte 'n') (by decide) (by decide)
  by_cases isCr : ch = byte '\r'
  · exact isCr ▸ simple (byte 'r') (by decide) (by decide)
  by_cases isTab : ch = byte '\t'
  · exact isTab ▸ simple (byte 't') (by decide) (by decide)
  have escaped : escape ch =
      if ch.toNat ≤ 0x1f then
        [backslash, byte 'u', byte '0', byte '0', hexDigit (ch.toNat / 16), hexDigit (ch.toNat % 16)]
      else [ch] := by
    rw [escape, if_neg isBackslash, if_neg isQuote, if_neg isBs, if_neg isFf, if_neg isLf, if_neg isCr,
      if_neg isTab]
  rw [escaped]
  split
  · obtain ⟨digits, same, alone, utf8⟩ := control_codepoint ch.toNat (by omega)
    refine ⟨_, .code rfl digits, fun pieces => ?_⟩
    rw [same, decode_alone alone, utf8, BitVec.ofNat_toNat, BitVec.setWidth_eq]
    rfl
  · exact ⟨.char ch, .plain ⟨isQuote, isBackslash, by omega⟩, fun _ => rfl⟩

/-- The line separators of Unicode. -/
theorem separator_piece {digit last : Byte}
    (which : digit = byte '8' ∧ last = 0xa8 ∨ digit = byte '9' ∧ last = 0xa9) :
    ∃ piece, IsPiece [backslash, byte 'u', byte '2', byte '0', byte '2', digit] piece ∧
      ∀ pieces, decode (piece :: pieces) = 0xe2 :: 0x80 :: last :: decode pieces := by
  rcases which with ⟨rfl, rfl⟩ | ⟨rfl, rfl⟩
  · exact ⟨_, .code rfl (by decide), fun pieces => decode_alone (by decide) pieces⟩
  · exact ⟨_, .code rfl (by decide), fun pieces => decode_alone (by decide) pieces⟩

/-- **Every string is dumped in pieces that stand for it.** -/
theorem dumpChars_pieces : ∀ (skip : Nat) (value : List Byte),
    ∃ pieces, Pieces (dumpChars skip value) pieces ∧ decode pieces = value.drop skip
  | skip, [] => ⟨[], by rw [dumpChars]; exact .nil, by rw [List.drop_nil]; rfl⟩
  | skip + 1, ch :: value => dumpChars_pieces skip value
  | 0, ch :: value => by
      have separated {digit last : Byte}
          (which : digit = byte '8' ∧ last = 0xa8 ∨ digit = byte '9' ∧ last = 0xa9)
          (front : ch = 0xe2 ∧ value.take 2 = [0x80, last]) :
          ∃ pieces, Pieces ([backslash, byte 'u', byte '2', byte '0', byte '2', digit] ++ dumpChars 2 value)
            pieces ∧ decode pieces = ch :: value := by
        obtain ⟨piece, is, stands⟩ := separator_piece which
        obtain ⟨pieces, read, rest⟩ := dumpChars_pieces 2 value
        refine ⟨piece :: pieces, .cons is read, ?_⟩
        rw [stands, rest, front.1]
        exact congrArg (List.cons _) ((congrArg (· ++ _) front.2).symm.trans (List.take_append_drop 2 value))
      rw [dumpChars]
      split
      · exact separated (.inl ⟨rfl, rfl⟩) ‹_›
      · split
        · exact separated (.inr ⟨rfl, rfl⟩) ‹_›
        · obtain ⟨piece, is, stands⟩ := escape_piece ch
          obtain ⟨pieces, read, rest⟩ := dumpChars_pieces 0 value
          exact ⟨piece :: pieces, .cons is read, by rw [stands, rest]; rfl⟩

end Drunos.Json11
