import Disassembly.Module

/-! Questions that join the blocks, symbols and sections of one module. -/
namespace Disassembly.Module

/-- The names that sections of linkage stubs have. -/
def stubSectionNames : List String := [".plt", ".plt.got", ".plt.sec", ".iplt"]

/-- Whether a symbol refers to a proxy block. -/
def isProxyReferent (m : Module) (id : SymbolId) : Except Error Bool :=
  (m.referentKind id).map (· = .proxyBlock)

def callEdgesFrom (m : Module) (block : BlockId) : Except Error EdgeWalk :=
  m.blocks.outgoingEdges block (some .call)

/-- The blocks that a block calls, in the order of the edges. -/
def callTargetsFrom (m : Module) (block : BlockId) : Except Error (List (BlockId × Block)) := do
  let calls ← m.callEdgesFrom block
  calls.toList.mapM fun (_, e) =>
    match m.blocks.block? e.target with
    | some b => .ok (e.target, b)
    | none => .error (.unknownBlock e.target)

/-- The sections that hold the address of the target of an edge. A target without an
address is in none. -/
def sectionsForEdgeTarget (m : Module) (id : EdgeId) :
    Except Error (List (SectionId × Section)) :=
  match m.blocks.edge? id with
  | none => .error (.unknownEdge id)
  | some e =>
    match m.blocks.block? e.target with
    | none => .error (.unknownBlock e.target)
    | some b =>
      match b.address with
      | some a => .ok (m.sections.sectionsOn a)
      | none => .ok []

/-- Those of them that hold linkage stubs. -/
def stubSectionsForEdge (m : Module) (id : EdgeId) : Except Error (List (SectionId × Section)) :=
  (m.sectionsForEdgeTarget id).map fun hits =>
    hits.filter fun (_, s) => stubSectionNames.contains s.name

/-- The symbol of that name, if there is exactly one. -/
def findSingleSymbol (m : Module) (name : String) : Option (SymbolId × Symbol) :=
  match m.symbols.find name with
  | [only] => some only
  | _ => none

/-- Whether a name is bound and each symbol of that name refers to a code block. The first
symbol for which this fails decides. -/
def symbolResolvesToCode (m : Module) (name : String) : Except Error Bool :=
  let rec every : List (SymbolId × Symbol) → Except Error Bool
    | [] => .ok true
    | (id, _) :: rest => do
      let kind ← m.referentKind id
      if kind = .codeBlock then every rest else .ok false
  match m.symbols.find name with
  | [] => .ok false
  | hits => every hits

end Disassembly.Module
