import Disassembly.Violation

/-! Errors are causes. Each has one message, and the words of a message stand nowhere else. -/
namespace Disassembly

/-- Why stored bytes or a stored text are not those of a program. -/
inductive Corruption where
  | truncatedHeader (length : Nat)
  | badMagic (found : List UInt8)
  | versionZero
  | digestMismatch (stored computed : List UInt8)
  | unreadable
  | trailingBytes (count : Nat)
  | inconsistent (violation : Violation)
deriving DecidableEq

/-- What still refers to a block that is to be removed. -/
inductive Referrer where
  | entryPoint
  | symbol (name : String)
deriving DecidableEq

inductive Error where
  | invalidBlock (fault : BlockFault)
  | unknownBlock (block : BlockId)
  | crossModuleEdge (source target : BlockId)
  | blockHasEdges (block : BlockId) (count : Nat)
  | danglingReferent (name : String) (block : BlockId)
  | moduleCollision (id : ModuleId) (name : String)
  | graphCollision (tag : GraphTag) (name : String)
  | corrupt (cause : Corruption)
  | unsupportedVersion (found supported : UInt32)
  | unknownEdge (edge : EdgeId)
  | unknownSymbol (symbol : SymbolId)
  | unknownModule (id : ModuleId)
  | proxyEdgeSource (block : BlockId)
  | blockReferenced (block : BlockId) (referrer : Referrer)
  | invalidEntryPoint (block : BlockId)
  | invalidSection (fault : SectionFault)
  | fileTooLarge (limit : UInt64) (found : Nat)
  | invalidSettings
  | inputOutput
deriving DecidableEq

def Corruption.message : Corruption → String
  | truncatedHeader length => s!"truncated header: {length} bytes, need 40"
  | badMagic found => "bad magic " ++ String.ofList (Hex.ofBytes found)
  | versionZero => "format version 0"
  | digestMismatch stored computed =>
    "payload digest mismatch: stored " ++ String.ofList (Hex.ofBytes stored) ++ ", computed " ++
      String.ofList (Hex.ofBytes computed)
  | unreadable => "<parser>"
  | trailingBytes count => s!"{count} trailing bytes after payload"
  | inconsistent violation => violation.message

def Referrer.description : Referrer → String
  | entryPoint => "the module entry point"
  | symbol name => s!"symbol '{name}'"

namespace Error

def message : Error → String
  | invalidBlock fault => "Invalid block attributes: " ++ fault.message
  | unknownBlock block => s!"Unknown block: {block}"
  | crossModuleEdge source target => s!"Edge {source} -> {target} crosses a module boundary"
  | blockHasEdges block count => s!"Block {block} still has {count} incident edge(s)"
  | danglingReferent name block =>
    s!"Symbol '{name}' refers to block {block} which is not in this module"
  | moduleCollision id name => s!"Module '{name}' ({id}) collides with an existing module"
  | graphCollision tag name =>
    s!"Module '{name}' shares block graph {tag} with an existing module"
  | corrupt cause => "Corrupt encoding: " ++ cause.message
  | unsupportedVersion found supported =>
    s!"Unsupported format version {found} (newest supported: {supported})"
  | unknownEdge edge => s!"Unknown edge: {edge}"
  | unknownSymbol symbol => s!"Unknown symbol: {symbol}"
  | unknownModule id => s!"Unknown module: {id}"
  | proxyEdgeSource block => s!"Proxy block {block} cannot be the source of an edge"
  | blockReferenced block referrer =>
    s!"Block {block} is still referenced by {referrer.description}"
  | invalidEntryPoint block => s!"Entry point {block} is not a code block"
  | invalidSection fault => "Invalid section: " ++ fault.message
  | fileTooLarge limit found =>
    s!"File size of {found} bytes exceeds the maximum allowed size of {limit} bytes"
  | invalidSettings => "Invalid configuration: <parser>"
  | inputOutput => "I/O error: <os>"

/-- Whether the caller can mend the situation and try again. -/
def isRecoverable : Error → Bool
  | moduleCollision .. | graphCollision .. | blockHasEdges .. => true
  | _ => false

end Error

end Disassembly
