import Disassembly.Block
import Disassembly.Section

/-! The rules that stored content can break. -/
namespace Disassembly

/-- How the stored content of one module can break the rules of a module. -/
inductive ModuleViolation where
  | blockBeyondCounter (last next : UInt32)
  | edgeBeyondCounter (last next : UInt32)
  | invalidBlock (index : UInt32) (fault : BlockFault)
  | foreignEndpoint (edge : EdgeId)
  | missingEndpoint (edge : EdgeId) (block : BlockId)
  | proxySource (edge : EdgeId) (block : BlockId)
  | symbolBeyondCounter (last next : UInt32)
  | danglingSymbol (name : String) (block : BlockId)
  | sectionBeyondCounter (last next : UInt32)
  | invalidSection (fault : SectionFault)
  | entryPointNotCode (block : BlockId)
  | entryPointMissing (block : BlockId)
deriving DecidableEq

/-- How the stored content of a program can break its rules. -/
inductive Violation where
  | duplicateModule (id : ModuleId)
  | sharedGraph (name : String) (tag : GraphTag)
  | inModule (name : String) (violation : ModuleViolation)
deriving DecidableEq

def ModuleViolation.message : ModuleViolation → String
  | blockBeyondCounter last next => s!"block index {last} beyond allocator ({next})"
  | edgeBeyondCounter last next => s!"edge index {last} beyond allocator ({next})"
  | invalidBlock index fault => s!"block {index}: Invalid block attributes: {fault.message}"
  | foreignEndpoint edge => s!"{edge} has an endpoint from another graph"
  | missingEndpoint edge block => s!"{edge} refers to missing block {block}"
  | proxySource edge block => s!"{edge} is sourced at proxy block {block}"
  | symbolBeyondCounter last next => s!"symbol index {last} beyond allocator ({next})"
  | danglingSymbol name block => s!"symbol '{name}' refers to missing block {block}"
  | sectionBeyondCounter last next => s!"section index {last} beyond allocator ({next})"
  | invalidSection fault => fault.message
  | entryPointNotCode block => s!"entry point {block} is not a code block"
  | entryPointMissing block => s!"entry point {block} is missing"

def Violation.message : Violation → String
  | duplicateModule id => s!"duplicate module id {id}"
  | sharedGraph name tag => s!"module '{name}' shares block graph {tag}"
  | inModule name violation => s!"module '{name}': {violation.message}"

end Disassembly
