import Disassembly.Digest.Sha256
import Disassembly.Uuid

/-! Identifiers. A module is known by a UUID. Blocks, edges, symbols and sections are known
by an index within their owner, and a block id also carries the tag of the graph that
allocated it, so that it means nothing to any other graph. -/
namespace Disassembly

structure ModuleId where
  uuid : Uuid
deriving DecidableEq, Inhabited

namespace ModuleId

/-- The id that every tool gives to a module of this name. -/
def derived (name : String) : ModuleId :=
  ⟨.ofLeading (Sha256.hash ("module:" ++ name).toUTF8.toList)⟩

instance : ToString ModuleId := ⟨fun id => "mod:" ++ id.uuid.text⟩

end ModuleId

/-- The mark of a block graph. -/
structure GraphTag where
  uuid : Uuid
deriving DecidableEq, Inhabited

/-- One group of digits is enough to tell graphs apart in messages. -/
instance : ToString GraphTag := ⟨fun tag => tag.uuid.firstGroup⟩

structure BlockId where
  graph : GraphTag
  index : UInt32
deriving DecidableEq

namespace BlockId

/-- Ids are ordered by tag and, within one graph, by index. -/
instance : Ord BlockId :=
  ⟨fun a b => (compare a.graph.uuid b.graph.uuid).then (compare a.index b.index)⟩

instance : ToString BlockId := ⟨fun id => s!"blk:{id.graph}:{id.index}"⟩

end BlockId

structure EdgeId where
  index : UInt32
deriving DecidableEq

instance : ToString EdgeId := ⟨fun id => s!"edge:{id.index}"⟩

structure SymbolId where
  index : UInt32
deriving DecidableEq

instance : ToString SymbolId := ⟨fun id => s!"sym:{id.index}"⟩

structure SectionId where
  index : UInt32
deriving DecidableEq

instance : ToString SectionId := ⟨fun id => s!"sect:{id.index}"⟩

/-- The index behind `n`, unless `n` is the largest. Indices are given out by counters that
only go up, so none is given out twice, not even after the thing it named is gone. -/
def nextIndex? (n : UInt32) : Option UInt32 :=
  if n.toNat + 1 < UInt32.size then some (n + 1) else none

end Disassembly
