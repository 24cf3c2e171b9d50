import Disassembly.Json

/-! The text of a JSON value, on one line or spread over many. -/
namespace Disassembly.Json

/-- What stands before an item at some depth, and between a name and its value. -/
structure Layout where
  lineBreak : Nat → List Char
  colon : List Char

namespace Layout

/-- No white space at all. -/
def compact : Layout := ⟨fun _ => [], [':']⟩

/-- One item on a line, with two spaces for each level of depth. -/
def indented : Layout := ⟨fun depth => '\n' :: List.replicate (2 * depth) ' ', [':', ' ']⟩

end Layout

def quoted (written : List Char) : List Char := '"' :: written ++ ['"']

mutual

/-- The text of a value. An empty array or object is two brackets and nothing between. -/
def render (l : Layout) (depth : Nat) : Json → List Char
  | .null => "null".toList
  | .bool true => "true".toList
  | .bool false => "false".toList
  | .number written => written
  | .string written => quoted written
  | .array [] => ['[', ']']
  | .array (v :: rest) =>
    '[' :: l.lineBreak (depth + 1) ++ render l (depth + 1) v ++ renderItems l (depth + 1) rest ++
      l.lineBreak depth ++ [']']
  | .object [] => ['\x7b', '\x7d']
  | .object ((name, v) :: rest) =>
    '\x7b' :: l.lineBreak (depth + 1) ++ quoted name ++ l.colon ++ render l (depth + 1) v ++
      renderMembers l (depth + 1) rest ++ l.lineBreak depth ++ ['\x7d']

/-- Further items, each behind a comma. -/
def renderItems (l : Layout) (depth : Nat) : List Json → List Char
  | [] => []
  | v :: rest => ',' :: l.lineBreak depth ++ render l depth v ++ renderItems l depth rest

/-- Further members, each behind a comma. -/
def renderMembers (l : Layout) (depth : Nat) : List (List Char × Json) → List Char
  | [] => []
  | (name, v) :: rest =>
    ',' :: l.lineBreak depth ++ quoted name ++ l.colon ++ render l depth v ++
      renderMembers l depth rest

end

def text (l : Layout) (v : Json) : String := String.ofList (render l 0 v)

end Disassembly.Json
