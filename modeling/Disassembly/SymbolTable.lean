import Disassembly.BlockGraph
import Disassembly.Symbol

/-! The symbols of a module. Names need not be unique. The ids under each name are listed
apart from the store; the lists are derived from it and rebuilt on loading. -/
namespace Disassembly

/-- For each name the symbols that have it, in the order in which they were added. -/
abbrev NameIndex := Table String (List SymbolId)

namespace NameIndex

def under (n : NameIndex) (name : String) : List SymbolId := (n.get? name).getD []

def push (n : NameIndex) (name : String) (id : SymbolId) : NameIndex :=
  n.insert name (n.under name ++ [id])

/-- Takes a symbol off the list of its name, and the name away with the last symbol. -/
def drop (n : NameIndex) (name : String) (id : SymbolId) : NameIndex :=
  match n.get? name with
  | some ids =>
    let rest := ids.filter (· ≠ id)
    if rest.isEmpty then n.erase name else n.insert name rest
  | none => n

end NameIndex

structure SymbolTable where
  nextSymbol : UInt32 := 0
  symbols : Table UInt32 Symbol := ∅
  byName : NameIndex := ∅
deriving DecidableEq, Inhabited

namespace SymbolTable

/-- The table as archives hold it, without the derived lists. -/
def stored (t : SymbolTable) : SymbolTable := { t with byName := ∅ }

def symbol? (t : SymbolTable) (id : SymbolId) : Option Symbol := t.symbols.get? id.index

def size (t : SymbolTable) : Nat := t.symbols.size

def isEmpty (t : SymbolTable) : Bool := t.symbols.isEmpty

/-- All symbols, in the order in which they were added. -/
def symbolList (t : SymbolTable) : List (SymbolId × Symbol) :=
  t.symbols.entries.map fun (index, s) => (⟨index⟩, s)

/-- The symbols listed under a name. An id without a symbol in the store is passed over. -/
def find (t : SymbolTable) (name : String) : List (SymbolId × Symbol) :=
  (t.byName.under name).filterMap fun id => (t.symbol? id).map fun s => (id, s)

def referringTo (t : SymbolTable) (block : BlockId) : List (SymbolId × Symbol) :=
  t.symbolList.filter fun (_, s) => s.referent = .block block

/-- What a symbol refers to, looked up in the graph of its module. -/
def referentKind (t : SymbolTable) (graph : BlockGraph) (id : SymbolId) :
    Except Error ReferentKind :=
  match t.symbol? id with
  | none => .error (.unknownSymbol id)
  | some s =>
    match s.referent with
    | .address _ => .ok .absoluteAddress
    | .value _ => .ok .absoluteValue
    | .block block =>
      match graph.block? block with
      | some b => .ok (.ofBlock b.kind)
      | none => .error (.danglingReferent s.name block)

/-- Why a symbol cannot be bound to blocks of a graph, if it cannot. -/
def dangling? (graph : BlockGraph) (s : Symbol) : Option Error :=
  match s.referent with
  | .block id => if graph.containsBlock id then none else some (.danglingReferent s.name id)
  | _ => none

/-- Binds a symbol. A block that it names must be in the graph. -/
def bind (graph : BlockGraph) (s : Symbol) : Edit SymbolTable SymbolId := do
  Edit.refuse (dangling? graph s)
  let t ← get
  let next ← Edit.demand (.invalidBlock .symbolIdsExhausted) (nextIndex? t.nextSymbol)
  let id : SymbolId := ⟨t.nextSymbol⟩
  set { t with
    nextSymbol := next
    symbols := t.symbols.insert id.index s
    byName := t.byName.push s.name id }
  return id

def addSymbol (graph : BlockGraph) (name : String) (referent : Referent) :
    Edit SymbolTable SymbolId :=
  bind graph ⟨name, referent, false⟩

/-- Binds a symbol to the end of a block. -/
def addSymbolAtEnd (graph : BlockGraph) (name : String) (block : BlockId) :
    Edit SymbolTable SymbolId :=
  bind graph ⟨name, .block block, true⟩

def removeSymbol (id : SymbolId) : Edit SymbolTable Symbol := do
  let t ← get
  let s ← Edit.demand (.unknownSymbol id) (t.symbol? id)
  set { t with symbols := t.symbols.erase id.index, byName := t.byName.drop s.name id }
  return s

/-- Follows a graph from one tag to another. Referents under other tags stay as they are. -/
def retag (t : SymbolTable) (old new : GraphTag) : SymbolTable :=
  { t with
    symbols := t.symbols.mapValues fun s =>
      match s.referent with
      | .block id => if id.graph = old then { s with referent := .block ⟨new, id.index⟩ } else s
      | _ => s }

end SymbolTable

end Disassembly
