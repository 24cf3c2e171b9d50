import Disassembly.Json.Token

/-! The value that a list of tokens spells. Arrays and objects of which a part has been read
are kept on a stack, so they may be nested to any depth. -/
namespace Disassembly.Json

/-- The value of a word. -/
def ofWord? (written : List Char) : Option Json :=
  if written = "null".toList then some .null
  else if written = "true".toList then some (.bool true)
  else if written = "false".toList then some (.bool false)
  else if isNumeral written then some (.number written)
  else none

/-- An array or object of which a part has been read. Its last item is still to come. -/
inductive Frame where
  | array (items : List Json)
  | object (members : List (List Char × Json)) (name : List Char)

/-- What has been read of a text, and what may come next. With `fresh` nothing has been read
of the innermost array or object, which may then be closed at once. -/
inductive Stage where
  | value (stack : List Frame) (fresh : Bool)
  | name (stack : List Frame) (members : List (List Char × Json)) (fresh : Bool)
  | colon (stack : List Frame) (members : List (List Char × Json)) (name : List Char)
  | finished (stack : List Frame) (value : Json)

namespace Stage

/-- Takes one token more. -/
def step : Stage → Token → Option Stage
  | value stack _, .word w => (ofWord? w).map (finished stack)
  | value stack _, .text t => some (finished stack (.string t))
  | value stack _, .openArray => some (value (.array [] :: stack) true)
  | value stack _, .openObject => some (name stack [] true)
  | value (.array [] :: stack) true, .closeArray => some (finished stack (.array []))
  | name stack members _, .text t => some (colon stack members t)
  | name stack _ true, .closeObject => some (finished stack (.object []))
  | colon stack members n, .colon => some (value (.object members n :: stack) false)
  | finished (.array items :: stack) v, .comma => some (value (.array (v :: items) :: stack) false)
  | finished (.array items :: stack) v, .closeArray =>
    some (finished stack (.array (v :: items).reverse))
  | finished (.object members n :: stack) v, .comma => some (name stack ((n, v) :: members) false)
  | finished (.object members n :: stack) v, .closeObject =>
    some (finished stack (.object ((n, v) :: members).reverse))
  | _, _ => none

end Stage

/-- The value that the tokens are, all of them together. -/
def ofTokens? (tokens : List Token) : Option Json := do
  match ← tokens.foldlM Stage.step (.value [] false) with
  | .finished [] v => some v
  | _ => none

/-- The value that a text is, with nothing around it but white space. -/
def parse? (text : List Char) : Option Json := (Token.scan text).bind ofTokens?

end Disassembly.Json
