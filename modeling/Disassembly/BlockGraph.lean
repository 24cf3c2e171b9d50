import Disassembly.Block
import Disassembly.BlockGraph.Adjacency
import Disassembly.BlockGraph.EdgeWalk
import Disassembly.Edit

/-! The blocks of a module and the edges between them. Edges stand in a store of their own;
for each block the graph also lists the edges that leave it and those that enter it. The
lists are derived from the store, are not kept in archives and are rebuilt on loading. -/
namespace Disassembly

structure BlockGraph where
  tag : GraphTag
  nextBlock : UInt32
  nextEdge : UInt32
  blocks : Table UInt32 Block
  edges : Table UInt32 Edge
  outgoing : Adjacency := ∅
  incoming : Adjacency := ∅
deriving DecidableEq

namespace BlockGraph

/-- A graph without blocks. -/
def empty (tag : GraphTag) : BlockGraph := ⟨tag, 0, 0, ∅, ∅, ∅, ∅⟩

instance : Inhabited BlockGraph := ⟨empty default⟩

/-- The graph as archives hold it, without the derived lists. -/
def stored (g : BlockGraph) : BlockGraph := { g with outgoing := ∅, incoming := ∅ }

/-- Whether a block id was given out by this graph. -/
def owns (g : BlockGraph) (id : BlockId) : Bool := id.graph = g.tag

def idOf (g : BlockGraph) (index : UInt32) : BlockId := ⟨g.tag, index⟩

def block? (g : BlockGraph) (id : BlockId) : Option Block :=
  if g.owns id then g.blocks.get? id.index else none

def containsBlock (g : BlockGraph) (id : BlockId) : Bool := (g.block? id).isSome

def edge? (g : BlockGraph) (id : EdgeId) : Option Edge := g.edges.get? id.index

def blockCount (g : BlockGraph) : Nat := g.blocks.size

def edgeCount (g : BlockGraph) : Nat := g.edges.size

def isEmpty (g : BlockGraph) : Bool := g.blocks.isEmpty

/-- All blocks, in the order in which they were made. -/
def blockList (g : BlockGraph) : List (BlockId × Block) :=
  g.blocks.entries.map fun (index, b) => (g.idOf index, b)

/-- All edges, in the order in which they were made. -/
def edgeList (g : BlockGraph) : List (EdgeId × Edge) :=
  g.edges.entries.map fun (index, e) => (⟨index⟩, e)

/-- The blocks whose bytes contain an address. -/
def blocksAt (g : BlockGraph) (a : UInt64) : List (BlockId × Block) :=
  g.blockList.filter fun (_, b) => b.contains a

/-- The edges of one kind, or of every kind, on the list of a block. -/
def walk (g : BlockGraph) (ids : List EdgeId) (kind : Option EdgeKind) : EdgeWalk :=
  ⟨g.edges, ids, kind⟩

def outgoingEdges (g : BlockGraph) (id : BlockId) (kind : Option EdgeKind) :
    Except Error EdgeWalk :=
  if g.containsBlock id then .ok (g.walk (g.outgoing.edgesAt id.index) kind)
  else .error (.unknownBlock id)

def incomingEdges (g : BlockGraph) (id : BlockId) (kind : Option EdgeKind) :
    Except Error EdgeWalk :=
  if g.containsBlock id then .ok (g.walk (g.incoming.edgesAt id.index) kind)
  else .error (.unknownBlock id)

/-- How many edges are listed at a block. A self-loop is on both lists and counts once. -/
def incidentEdgeCount (g : BlockGraph) (id : BlockId) : Nat :=
  let leaving := g.outgoing.edgesAt id.index
  let loops := leaving.filter fun e => (g.edge? e).any fun edge => edge.target = id
  leaving.length + (g.incoming.edgesAt id.index).length - loops.length

/-- Makes a block. The attributes are looked at before the supply of indices. -/
def addBlock (kind : BlockKind) (attributes : BlockAttributes) : Edit BlockGraph BlockId := do
  let block ← Edit.require .invalidBlock (Block.ofAttributes kind attributes)
  let g ← get
  let next ← Edit.demand (.invalidBlock .blockIdsExhausted) (nextIndex? g.nextBlock)
  set { g with nextBlock := next, blocks := g.blocks.insert g.nextBlock block }
  return g.idOf g.nextBlock

def addCodeBlock (address size : UInt64) : Edit BlockGraph BlockId :=
  addBlock .code { address := some address, size := some size }

def addDataBlock (address size : UInt64) : Edit BlockGraph BlockId :=
  addBlock .data { address := some address, size := some size }

def addProxyBlock : Edit BlockGraph BlockId := addBlock .proxy {}

/-- Joins two blocks of this graph. Control never leaves a proxy block. -/
def addEdge (source target : BlockId) (label : EdgeLabel) : Edit BlockGraph EdgeId := do
  let g ← get
  Edit.refuseIf (!g.owns source || !g.owns target) (.crossModuleEdge source target)
  let sourceBlock ← Edit.demand (.unknownBlock source) (g.blocks.get? source.index)
  Edit.refuseIf (!g.blocks.contains target.index) (.unknownBlock target)
  Edit.refuseIf sourceBlock.isProxy (.proxyEdgeSource source)
  let next ← Edit.demand (.invalidBlock .edgeIdsExhausted) (nextIndex? g.nextEdge)
  let id : EdgeId := ⟨g.nextEdge⟩
  set { g with
    nextEdge := next
    edges := g.edges.insert id.index ⟨source, target, label⟩
    outgoing := g.outgoing.push source.index id
    incoming := g.incoming.push target.index id }
  return id

def removeEdge (id : EdgeId) : Edit BlockGraph Edge := do
  let g ← get
  let edge ← Edit.demand (.unknownEdge id) (g.edge? id)
  set { g with
    edges := g.edges.erase id.index
    outgoing := g.outgoing.drop edge.source.index id
    incoming := g.incoming.drop edge.target.index id }
  return edge

/-- Removes a block at which no edge is listed. Edges are never removed along with it. -/
def removeBlock (id : BlockId) : Edit BlockGraph Block := do
  let g ← get
  let block ← Edit.demand (.unknownBlock id) (g.block? id)
  let count := g.incidentEdgeCount id
  Edit.refuseIf (0 < count) (.blockHasEdges id count)
  set { g with
    blocks := g.blocks.erase id.index
    outgoing := g.outgoing.erase id.index
    incoming := g.incoming.erase id.index }
  return block

/-- Gives a code or data block an address, or takes it away. -/
def setBlockAddress (id : BlockId) (address : Option UInt64) : Edit BlockGraph Unit := do
  let g ← get
  let block ← Edit.demand (.unknownBlock id) (g.block? id)
  let moved ← Edit.require .invalidBlock (block.withAddress address)
  Edit.require .invalidBlock moved.validate
  set { g with blocks := g.blocks.insert id.index moved }

/-- Moves the graph to another tag. Every endpoint of an edge gets the new tag, and block
ids given out under the old one stop resolving. -/
def retag (g : BlockGraph) (tag : GraphTag) : BlockGraph :=
  { g with
    tag
    edges := g.edges.mapValues fun e =>
      { e with source := ⟨tag, e.source.index⟩, target := ⟨tag, e.target.index⟩ } }

end BlockGraph

end Disassembly
