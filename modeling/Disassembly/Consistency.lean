import Disassembly.Program

/-! Stored content is taken over only if it keeps every rule. The checks stop at the first
rule that is broken, in a fixed order, and change nothing. What is derived from the content
is then rebuilt from it. -/
namespace Disassembly

/-- Refuses a counter that is not above the last index in use. -/
def checkCounter (fault : UInt32 → UInt32 → ModuleViolation) (last : Option UInt32)
    (next : UInt32) : Except ModuleViolation Unit :=
  match last with
  | some index => if index < next then .ok () else .error (fault index next)
  | none => .ok ()

namespace BlockGraph

def checkEndpoint (g : BlockGraph) (edge : EdgeId) (id : BlockId) :
    Except ModuleViolation Unit :=
  if !g.owns id then .error (.foreignEndpoint edge)
  else if !g.blocks.contains id.index then .error (.missingEndpoint edge id)
  else .ok ()

/-- The source is looked at before the target, and both before the kind of the source. -/
def checkEdge (g : BlockGraph) (id : EdgeId) (e : Edge) : Except ModuleViolation Unit := do
  g.checkEndpoint id e.source
  g.checkEndpoint id e.target
  if (g.blocks.get? e.source.index).any Block.isProxy then
    throw (.proxySource id e.source)

def checkBlock (index : UInt32) (b : Block) : Except ModuleViolation Unit :=
  b.validate.mapError (.invalidBlock index)

/-- The first rule of a graph that the stored content breaks. -/
def check (g : BlockGraph) : Except ModuleViolation Unit := do
  checkCounter .blockBeyondCounter g.blocks.lastKey? g.nextBlock
  checkCounter .edgeBeyondCounter g.edges.lastKey? g.nextEdge
  g.blocks.entries.forM fun (index, b) => checkBlock index b
  g.edgeList.forM fun (id, e) => g.checkEdge id e

/-- Rebuilds the lists of edges from the store, in the order of the edge ids. -/
def relink (g : BlockGraph) : BlockGraph :=
  g.edgeList.foldl
    (fun acc (id, e) =>
      { acc with
        outgoing := acc.outgoing.push e.source.index id
        incoming := acc.incoming.push e.target.index id })
    g.stored

end BlockGraph

namespace SymbolTable

def checkSymbol (graph : BlockGraph) (s : Symbol) : Except ModuleViolation Unit :=
  match s.referent with
  | .block id => if graph.containsBlock id then .ok () else .error (.danglingSymbol s.name id)
  | _ => .ok ()

/-- The first rule that the stored symbols break. -/
def check (t : SymbolTable) (graph : BlockGraph) : Except ModuleViolation Unit := do
  checkCounter .symbolBeyondCounter t.symbols.lastKey? t.nextSymbol
  t.symbols.values.forM (checkSymbol graph)

/-- Rebuilds the lists of names from the store, in the order of the symbol ids. -/
def relink (t : SymbolTable) : SymbolTable :=
  t.symbolList.foldl (fun acc (id, s) => { acc with byName := acc.byName.push s.name id }) t.stored

end SymbolTable

namespace AddressSpace

/-- The first rule that the stored sections break. -/
def check (s : AddressSpace) : Except ModuleViolation Unit := do
  checkCounter .sectionBeyondCounter s.sections.lastKey? s.nextSection
  s.sections.values.forM fun x => x.validate.mapError .invalidSection

end AddressSpace

namespace Module

def checkEntryPoint (m : Module) : Except ModuleViolation Unit :=
  match m.entryPoint with
  | none => .ok ()
  | some id =>
    match m.blocks.block? id with
    | none => .error (.entryPointMissing id)
    | some b => if b.isCode then .ok () else .error (.entryPointNotCode id)

/-- The first rule of a module that the stored content breaks. -/
def check (m : Module) : Except ModuleViolation Unit := do
  m.blocks.check
  m.symbols.check m.blocks
  m.sections.check
  m.checkEntryPoint

/-- Rebuilds everything that is derived from the stored content. -/
def relink (m : Module) : Module :=
  { m with blocks := m.blocks.relink, symbols := m.symbols.relink }

end Module

namespace Program

/-- Compares each module with those before it, the id before the tag. -/
def checkDistinct : List Module → List Module → Except Violation Unit
  | _, [] => .ok ()
  | earlier, m :: rest =>
    if earlier.any (·.id = m.id) then .error (.duplicateModule m.id)
    else if earlier.any (·.graphTag = m.graphTag) then .error (.sharedGraph m.name m.graphTag)
    else checkDistinct (earlier ++ [m]) rest

/-- The first rule of a program that the stored content breaks. -/
def check (p : Program) : Except Violation Unit := do
  checkDistinct [] p.modules
  p.modules.forM fun m => m.check.mapError (.inModule m.name)

/-- Rebuilds everything that is derived from the stored content. -/
def relink (p : Program) : Program := { p with modules := p.modules.map Module.relink }

/-- Accepts stored content that keeps every rule, and rebuilds what is derived from it. -/
def accept (p : Program) : Except Violation Program := do
  p.check
  return p.relink

end Program

end Disassembly
