import Disassembly.Json

/-! The tokens of a JSON text. A word is an unbroken run of characters that are neither white
space nor part of another token; whether it means anything is seen later. -/
namespace Disassembly.Json

inductive Token where
  | openArray | closeArray | openObject | closeObject | comma | colon
  | word (written : List Char)
  | text (written : List Char)
deriving DecidableEq

namespace Token

def punctuation? : Char → Option Token
  | '[' => some openArray
  | ']' => some closeArray
  | '\x7b' => some openObject
  | '\x7d' => some closeObject
  | ',' => some comma
  | ':' => some colon
  | _ => none

def isSpace (c : Char) : Bool := c = ' ' || c = '\t' || c = '\n' || c = '\r'

/-- What the next character belongs to. What has been read of it stands in reverse. -/
inductive Place where
  | word (read : List Char)
  | text (read : List Char)
  | escape (read : List Char)
  | unit (digitsDue : Nat) (read : List Char)

/-- Ends a word, unless it is empty. -/
def endWord (read : List Char) (done : List Token) : List Token :=
  if read = [] then done else word read.reverse :: done

/-- Takes one character more. Control characters have no place in a text, and of an escape
only the spelling is looked at. -/
def step : Place × List Token → Char → Option (Place × List Token)
  | (.word read, done), c =>
    if isSpace c then some (.word [], endWord read done)
    else if c = '"' then some (.text [], endWord read done)
    else
      match punctuation? c with
      | some t => some (.word [], t :: endWord read done)
      | none => some (.word (c :: read), done)
  | (.text read, done), c =>
    if c = '"' then some (.word [], text read.reverse :: done)
    else if c = '\\' then some (.escape (c :: read), done)
    else if c.toNat < 0x20 then none
    else some (.text (c :: read), done)
  | (.escape read, done), c =>
    if c = 'u' then some (.unit 4 (c :: read), done)
    else if (shortEscape? c).isSome then some (.text (c :: read), done)
    else none
  | (.unit due read, done), c =>
    if (Hex.digit? c).isNone then none
    else if due ≤ 1 then some (.text (c :: read), done)
    else some (.unit (due - 1) (c :: read), done)

/-- The tokens of a text, which must not end within a quoted text. -/
def scan (text : List Char) : Option (List Token) := do
  match ← text.foldlM step (.word [], []) with
  | (.word read, done) => some (endWord read done).reverse
  | _ => none

end Token

end Disassembly.Json
