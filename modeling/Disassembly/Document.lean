import Disassembly.Archive
import Disassembly.Json.Layout
import Disassembly.Json.Model
import Disassembly.Json.Tree

/-! The JSON document of a program, for inspection and comparison. It names the version of the
format and then holds the program. -/
namespace Disassembly.Document

open Json

def envelope : Form (UInt32 × Program) :=
  .record ((Record.field "format_version" .word32).and (.field "ir" Program.form))

/-- The document of a program, one item on a line. -/
def encode (p : Program) : String :=
  Json.text .indented (envelope.write (Archive.version, p))

/-- Reads a module off a text. Nothing is checked, and what is derived from its content is
left empty. -/
def readModule? (text : String) : Option Module :=
  (Json.parse? text.toList).bind Module.form.read

/-- Reads a document. The text must be readable as a whole before its version counts, and the
rules of a program are looked at last. -/
def decode (text : String) : Except Error Program :=
  match (Json.parse? text.toList).bind envelope.read with
  | none => .error (.corrupt .unreadable)
  | some (found, p) =>
    if Archive.version < found then .error (.unsupportedVersion found Archive.version)
    else Archive.accept p

end Disassembly.Document
