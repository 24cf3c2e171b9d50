import Disassembly.Text.Hex

/-! Universally unique identifiers, their hyphenated text and the four layouts in which such
a text may be given. -/
namespace Disassembly

/-- Sixteen bytes, most significant first. -/
structure Uuid where
  bytes : List UInt8
  length_bytes : bytes.length = 16
deriving DecidableEq

namespace Uuid

instance : Ord Uuid := ⟨fun a b => compare a.bytes b.bytes⟩

def ofBytes? (bytes : List UInt8) : Option Uuid :=
  if h : bytes.length = 16 then some ⟨bytes, h⟩ else none

/-- The first sixteen of the given bytes, with zeros where they end early. -/
def ofLeading (bytes : List UInt8) : Uuid :=
  ⟨bytes.take 16 ++ List.replicate (16 - bytes.length) 0, by simp; omega⟩

instance : Inhabited Uuid := ⟨ofLeading []⟩

/-- Five groups of 8, 4, 4, 4 and 12 digits with hyphens between them. -/
def chars (u : Uuid) : List Char :=
  let group (from_ count : Nat) : List Char := Hex.ofBytes ((u.bytes.drop from_).take count)
  group 0 4 ++ '-' :: group 4 2 ++ '-' :: group 6 2 ++ '-' :: group 8 2 ++ '-' :: group 10 6

def text (u : Uuid) : String := String.ofList u.chars

/-- The first group of the text. -/
def firstGroup (u : Uuid) : String := String.ofList (Hex.ofBytes (u.bytes.take 4))

/-- Reads 32 digits without hyphens. -/
def ofDigits? (digits : List Char) : Option Uuid := (Hex.bytes? digits).bind ofBytes?

/-- Reads the five groups with their hyphens. -/
def ofGroups? (cs : List Char) : Option Uuid :=
  if cs.length = 36 ∧ cs[8]? = some '-' ∧ cs[13]? = some '-' ∧ cs[18]? = some '-' ∧
      cs[23]? = some '-' then
    ofDigits? (cs.take 8 ++ (cs.drop 9).take 4 ++ (cs.drop 14).take 4 ++
      (cs.drop 19).take 4 ++ cs.drop 24)
  else none

/-- The name that marks a UUID among the uniform resource names. -/
def namespaceMark : List Char := "urn:uuid:".toList

/-- Reads a text in one of the four layouts: digits alone, groups with hyphens, such groups
in braces, or such groups after `urn:uuid:`. Letters may be in either case. -/
def ofText? (text : String) : Option Uuid :=
  let cs := text.toList
  if cs.head? = some '\x7b' ∧ cs.getLast? = some '\x7d' then ofGroups? (cs.drop 1).dropLast
  else if (cs.take 9).map Char.toLower = namespaceMark then ofGroups? (cs.drop 9)
  else if cs.length = 32 then ofDigits? cs
  else ofGroups? cs

end Uuid

end Disassembly
