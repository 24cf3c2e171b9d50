import Disassembly.Edge
import Disassembly.Table

/-! Edges met one after the other. -/
namespace Disassembly

/-- A walk along a list of edge ids. It reads the store as it goes, passes over ids without an
edge in it and over edges of other kinds, and can be taken up again from any point. -/
structure EdgeWalk where
  edges : Table UInt32 Edge
  ids : List EdgeId
  kind : Option EdgeKind

namespace EdgeWalk

/-- The edge that an id stands for on this walk, if it is to be shown. -/
def show? (w : EdgeWalk) (id : EdgeId) : Option (EdgeId × Edge) :=
  (w.edges.get? id.index).bind fun e =>
    if w.kind.all (· = e.kind) then some (id, e) else none

/-- All edges that are still to come. -/
def toList (w : EdgeWalk) : List (EdgeId × Edge) := w.ids.filterMap w.show?

/-- Looks for the next edge among `ids`, and says which ids are behind it. -/
def search (w : EdgeWalk) : List EdgeId → Option ((EdgeId × Edge) × List EdgeId)
  | [] => none
  | id :: rest =>
    match w.show? id with
    | some e => some (e, rest)
    | none => search w rest

/-- The next edge and the walk behind it. -/
def next? (w : EdgeWalk) : Option ((EdgeId × Edge) × EdgeWalk) :=
  (w.search w.ids).map fun (e, rest) => (e, { w with ids := rest })

/-- The walk after `n` edges, or at its end if it has fewer. -/
def advance : Nat → EdgeWalk → EdgeWalk
  | 0, w => w
  | n + 1, w =>
    match w.next? with
    | some (_, rest) => advance n rest
    | none => w

end EdgeWalk

end Disassembly
