import Disassembly.Id
import Disassembly.Table

/-! Lists of edges by block. -/
namespace Disassembly

/-- For each block index the edges at that block, in the order in which they came. -/
abbrev Adjacency := Table UInt32 (List EdgeId)

namespace Adjacency

/-- The edges listed at a block. -/
def edgesAt (a : Adjacency) (index : UInt32) : List EdgeId := (a.get? index).getD []

def push (a : Adjacency) (index : UInt32) (id : EdgeId) : Adjacency :=
  a.insert index (a.edgesAt index ++ [id])

/-- Takes an edge off the list of one block. The list stays, even if it is now empty. -/
def drop (a : Adjacency) (index : UInt32) (id : EdgeId) : Adjacency :=
  match a.get? index with
  | some ids => a.insert index (ids.filter (· ≠ id))
  | none => a

end Adjacency

end Disassembly
