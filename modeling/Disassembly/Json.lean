import Disassembly.Text.Hex

/-! JSON values as they are written. Numbers and texts keep their spelling, because some of
it is judged only where a value is used: an escape that denotes no character is refused in
a text that is read and passed over in one that is skipped. Objects keep their members in
order, repeated names included. -/
namespace Disassembly

inductive Json where
  | null
  | bool (b : Bool)
  | number (written : List Char)
  | string (written : List Char)
  | array (items : List Json)
  | object (members : List (List Char × Json))

namespace Json

/-- One character as it is written in a text. -/
def escapeChar (c : Char) : List Char :=
  match c with
  | '"' => ['\\', '"']
  | '\\' => ['\\', '\\']
  | '\n' => ['\\', 'n']
  | '\r' => ['\\', 'r']
  | '\t' => ['\\', 't']
  | '\x08' => ['\\', 'b']
  | '\x0c' => ['\\', 'f']
  | c =>
    if c.toNat < 0x20 then ['\\', 'u', '0', '0'] ++ Hex.ofByte (UInt8.ofNat c.toNat) else [c]

def escape (text : List Char) : List Char := text.flatMap escapeChar

/-- A part of a written text: a character, or a unit of UTF-16 given by its number. -/
inductive Piece where
  | char (c : Char)
  | unit (n : Nat)

/-- The characters that a backslash and one letter stand for. -/
def shortEscape? : Char → Option Char
  | '"' => some '"'
  | '\\' => some '\\'
  | '/' => some '/'
  | 'b' => some '\x08'
  | 'f' => some '\x0c'
  | 'n' => some '\n'
  | 'r' => some '\r'
  | 't' => some '\t'
  | _ => none

/-- The parts of a written text, if its escapes are well spelled. -/
def pieces? : List Char → Option (List Piece)
  | [] => some []
  | '\\' :: 'u' :: a :: b :: c :: d :: rest => do
    let n ← Hex.nat? [a, b, c, d]
    return .unit n :: (← pieces? rest)
  | '\\' :: c :: rest => do
    let c ← shortEscape? c
    return .char c :: (← pieces? rest)
  | c :: rest => if c = '\\' then none else do return .char c :: (← pieces? rest)

/-- The characters of the parts. A unit from the range of surrogates must be the first of a
pair of them. -/
def joinPieces : List Piece → Option (List Char)
  | [] => some []
  | .char c :: rest => do return c :: (← joinPieces rest)
  | .unit n :: rest =>
    if n < 0xd800 ∨ 0xe000 ≤ n then do return Char.ofNat n :: (← joinPieces rest)
    else
      match rest with
      | .unit low :: rest =>
        if n < 0xdc00 ∧ 0xdc00 ≤ low ∧ low < 0xe000 then do
          let c := Char.ofNat (0x10000 + (n - 0xd800) * 0x400 + (low - 0xdc00))
          return c :: (← joinPieces rest)
        else none
      | _ => none

/-- The text that is written so, if it is one. -/
def unescape? (written : List Char) : Option (List Char) := (pieces? written).bind joinPieces

/-- Drops the decimal digits in front, of which there must be one. -/
def skipDigits? : List Char → Option (List Char)
  | [] => none
  | c :: rest => if c.isDigit then some (rest.dropWhile Char.isDigit) else none

/-- Whether a spelling is that of a number. -/
def isNumeral (written : List Char) : Bool :=
  let unsigned := if written.head? = some '-' then written.tail else written
  let afterWhole := match unsigned with
    | '0' :: rest => some rest
    | cs => skipDigits? cs
  let afterFraction := afterWhole.bind fun cs =>
    if cs.head? = some '.' then skipDigits? cs.tail else some cs
  let afterExponent := afterFraction.bind fun cs =>
    if cs.head? = some 'e' ∨ cs.head? = some 'E' then
      let cs := cs.tail
      skipDigits? (if cs.head? = some '+' ∨ cs.head? = some '-' then cs.tail else cs)
    else some cs
  afterExponent = some []

def decimal (n : Nat) : List Char := Nat.toDigits 10 n

/-- The number that a run of decimal digits denotes, without needless zeros in front. -/
def nat? (written : List Char) : Option Nat :=
  match written with
  | [] => none
  | ['0'] => some 0
  | '0' :: _ => none
  | digits =>
    digits.foldlM (fun n c => if c.isDigit then some (10 * n + (c.toNat - 48)) else none) 0

/-- The number that is written with at most a minus sign and digits. Zero has no sign. -/
def int? (written : List Char) : Option Int :=
  match written with
  | '-' :: digits => (nat? digits).bind fun n => if n = 0 then none else some (-n)
  | digits => (nat? digits).map Int.ofNat

end Json

end Disassembly
