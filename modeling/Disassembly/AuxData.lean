import Disassembly.Table

/-! Free-form tables that tools attach to a module or to a whole program. They are stored
and given back, and never interpreted. -/
namespace Disassembly

structure AuxData where
  typeName : String
  data : List UInt8
deriving DecidableEq

namespace AuxData

/-- A table that holds a text. -/
def ofText (text : String) : AuxData := ⟨"string", text.toUTF8.toList⟩

/-- The text of such a table, if its bytes are one. -/
def text? (t : AuxData) : Option String :=
  if t.typeName = "string" then String.fromUTF8? ⟨t.data.toArray⟩ else none

instance : ToString AuxData := ⟨fun t => s!"{t.typeName} ({t.data.length} bytes)"⟩

end AuxData

/-- Tables by name, in the order of their names. -/
abbrev AuxTables := Table String AuxData

end Disassembly
