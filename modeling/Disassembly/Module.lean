import Disassembly.AddressSpace
import Disassembly.AuxData
import Disassembly.SymbolTable
import Disassembly.Target

/-! A module is one executable or library. It owns its blocks, symbols and sections, and
every change goes through it, so that the rules which join these parts are kept in one
place. -/
namespace Disassembly

structure Module where
  id : ModuleId
  name : String
  binaryPath : String
  architecture : Architecture
  byteOrder : ByteOrder
  fileFormat : FileFormat
  preferredAddress : UInt64
  rebaseDelta : Int64
  entryPoint : Option BlockId
  sections : AddressSpace
  blocks : BlockGraph
  symbols : SymbolTable
  auxData : AuxTables
deriving DecidableEq, Inhabited

/-- What is said of a module when it is made. A missing path is the name. -/
structure Module.Description where
  name : String
  binaryPath : Option String := none
  architecture : Architecture := .unknown
  byteOrder : ByteOrder := .little
  fileFormat : FileFormat := .unknown
  preferredAddress : UInt64 := 0
  rebaseDelta : Int64 := 0

namespace Module

/-- An empty module. -/
def build (d : Description) (id : ModuleId) (tag : GraphTag) : Module where
  id
  name := d.name
  binaryPath := d.binaryPath.getD d.name
  architecture := d.architecture
  byteOrder := d.byteOrder
  fileFormat := d.fileFormat
  preferredAddress := d.preferredAddress
  rebaseDelta := d.rebaseDelta
  entryPoint := none
  sections := {}
  blocks := .empty tag
  symbols := {}
  auxData := ∅

/-- The module as archives hold it, without what is derived. -/
def stored (m : Module) : Module :=
  { m with blocks := m.blocks.stored, symbols := m.symbols.stored }

/-- The tag on every block id that the module gives out. -/
def graphTag (m : Module) : GraphTag := m.blocks.tag

/-- The address at which the module is loaded. It wraps around at both ends. -/
def loadAddress (m : Module) : UInt64 := m.preferredAddress + m.rebaseDelta.toUInt64

instance : ToString Module where
  toString m := s!"Module '{m.name}' ({m.fileFormat}, {m.architecture}, {m.byteOrder})"

def referentKind (m : Module) (id : SymbolId) : Except Error ReferentKind :=
  m.symbols.referentKind m.blocks id

variable {α : Type}

/-- A change of the block graph alone. -/
def onBlocks (edit : Edit BlockGraph α) : Edit Module α :=
  edit.within Module.blocks fun blocks m => { m with blocks }

/-- A change of the symbols alone. -/
def onSymbols (edit : Edit SymbolTable α) : Edit Module α :=
  edit.within Module.symbols fun symbols m => { m with symbols }

/-- A change of the sections alone. -/
def onSections (edit : Edit AddressSpace α) : Edit Module α :=
  edit.within Module.sections fun sections m => { m with sections }

def addBlock (kind : BlockKind) (attributes : BlockAttributes) : Edit Module BlockId :=
  onBlocks (BlockGraph.addBlock kind attributes)

def addCodeBlock (address size : UInt64) : Edit Module BlockId :=
  onBlocks (BlockGraph.addCodeBlock address size)

def addDataBlock (address size : UInt64) : Edit Module BlockId :=
  onBlocks (BlockGraph.addDataBlock address size)

def addProxyBlock : Edit Module BlockId := onBlocks BlockGraph.addProxyBlock

def addEdge (source target : BlockId) (label : EdgeLabel) : Edit Module EdgeId :=
  onBlocks (BlockGraph.addEdge source target label)

def removeEdge (id : EdgeId) : Edit Module Edge := onBlocks (BlockGraph.removeEdge id)

def setBlockAddress (id : BlockId) (address : Option UInt64) : Edit Module Unit :=
  onBlocks (BlockGraph.setBlockAddress id address)

/-- What refers to a block apart from edges, if anything does. The entry point comes first,
then the symbols in their order. -/
def referrer? (m : Module) (id : BlockId) : Option Referrer :=
  if m.entryPoint = some id then some .entryPoint
  else (m.symbols.referringTo id).head?.map fun (_, s) => .symbol s.name

/-- Removes a block that nothing refers to. -/
def removeBlock (id : BlockId) : Edit Module Block := do
  let m ← get
  Edit.refuseIf (!m.blocks.containsBlock id) (.unknownBlock id)
  Edit.refuse ((m.referrer? id).map (.blockReferenced id))
  onBlocks (BlockGraph.removeBlock id)

/-- Why a block cannot be the entry point, if it cannot. It must be a code block of this
module. -/
def entryFault? (m : Module) (id : BlockId) : Option Error :=
  match m.blocks.block? id with
  | none => some (.unknownBlock id)
  | some b => if b.isCode then none else some (.invalidEntryPoint id)

/-- Sets the entry point, or takes it away. -/
def setEntryPoint (entry : Option BlockId) : Edit Module Unit := do
  let m ← get
  Edit.refuse (entry.bind m.entryFault?)
  set { m with entryPoint := entry }

def addSymbol (name : String) (referent : Referent) : Edit Module SymbolId := do
  let m ← get
  onSymbols (SymbolTable.addSymbol m.blocks name referent)

def addSymbolAtEnd (name : String) (block : BlockId) : Edit Module SymbolId := do
  let m ← get
  onSymbols (SymbolTable.addSymbolAtEnd m.blocks name block)

def removeSymbol (id : SymbolId) : Edit Module Symbol := onSymbols (SymbolTable.removeSymbol id)

def addSection (x : Section) : Edit Module SectionId := onSections (AddressSpace.addSection x)

def removeSection (id : SectionId) : Edit Module (Option Section) :=
  onSections (AddressSpace.removeSection id)

/-- Attaches a table, and gives back the one that had its name. -/
def setAux (name : String) (table : AuxData) : Edit Module (Option AuxData) := do
  let m ← get
  set { m with auxData := m.auxData.insert name table }
  return m.auxData.get? name

def removeAux (name : String) : Edit Module (Option AuxData) := do
  let m ← get
  set { m with auxData := m.auxData.erase name }
  return m.auxData.get? name

/-- The same module under another id and tag. Each reference to a block of the module is
moved to the new tag, so ids given out before no longer resolve. -/
def withIdentity (m : Module) (id : ModuleId) (tag : GraphTag) : Module :=
  { m with
    id
    blocks := m.blocks.retag tag
    symbols := m.symbols.retag m.graphTag tag
    entryPoint := m.entryPoint.map fun entry =>
      if entry.graph = m.graphTag then ⟨tag, entry.index⟩ else entry }

end Module

end Disassembly
