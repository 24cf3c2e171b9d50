import Disassembly.Proofs.Enumeration
import Disassembly.Proofs.ListedAnswers

/-! How many edges are at a block. The number is read off the lists of edges that leave the block
and that enter it, on both of which a loop stands; it is that of the stored edges which have the
block at an end, each of them counted once. -/
namespace Disassembly

/-- What passes both tests is in both lists, and has to be taken off once. -/
theorem length_filter_or_add_and {α : Type} (p q : α → Bool) (l : List α) :
    (l.filter fun x => p x || q x).length + (l.filter fun x => p x && q x).length =
      (l.filter p).length + (l.filter q).length := by
  induction l with
  | nil => rfl
  | cons x rest ih => cases hp : p x <;> cases hq : q x <;> simp [hp, hq] <;> omega

namespace BlockGraph

variable {g : BlockGraph} {id : BlockId}

theorem enumerates_incident (g : BlockGraph) (id : BlockId) :
    Enumerates g.edge? EdgeId.index (fun e => e.source = id ∨ e.target = id)
      (g.edgeList.filter fun x => x.2.source = id || x.2.target = id) :=
  (g.enumerates_edgeList fun e => e.source = id || e.target = id).congr fun e => by simp

/-- The loops on the list of edges that leave a block. -/
def loopsAt (g : BlockGraph) (id : BlockId) : List EdgeId :=
  (g.outgoing.edgesAt id.index).filter fun e => (g.edge? e).any fun edge => edge.target = id

/-- The loops are taken off a sum that holds them, in any graph. -/
theorem incidentEdgeCount_add_loops (g : BlockGraph) (id : BlockId) :
    g.incidentEdgeCount id + (g.loopsAt id).length =
      (g.outgoing.edgesAt id.index).length + (g.incoming.edgesAt id.index).length := by
  have hLoops : (g.loopsAt id).length ≤ (g.outgoing.edgesAt id.index).length :=
    List.length_filter_le ..
  change (g.outgoing.edgesAt id.index).length + (g.incoming.edgesAt id.index).length -
    (g.loopsAt id).length + (g.loopsAt id).length = _
  omega

/-- Edges are listed by the index of a block alone, but all ends are under the tag of the graph. -/
theorem edgesWhere_index {endOf : Edge → BlockId} (hOwn : id.graph = g.tag)
    (hEnds : ∀ x ∈ g.edgeList, (endOf x.2).graph = g.tag) :
    g.edgesWhere (fun e => (endOf e).index = id.index) =
      (g.edgeList.filter fun x => endOf x.2 = id).map Prod.fst := by
  rw [edgesWhere_eq_filter]
  refine congrArg (List.map Prod.fst) (List.filter_congr fun x hx => decide_eq_decide.mpr ?_)
  exact BlockId.index_eq_iff ((hEnds x hx).trans hOwn.symm)

/-- The number of edges at a block is that of the stored edges that have it at an end. -/
theorem incidentEdgeCount_eq_length {l : List (EdgeId × Edge)} (h : g.Sound)
    (hOwn : id.graph = g.tag) (hEdges : Enumerates g.edge? EdgeId.index
      (fun e => e.source = id ∨ e.target = id) l) : g.incidentEdgeCount id = l.length := by
  have hOut : g.outgoing.edgesAt id.index =
      (g.edgeList.filter fun x => x.2.source = id).map Prod.fst :=
    (h.linked.outgoing _).trans
      (edgesWhere_index hOwn fun x hx => (h.wellFormed.tag_of_mem hx).1)
  have hIn : g.incoming.edgesAt id.index =
      (g.edgeList.filter fun x => x.2.target = id).map Prod.fst :=
    (h.linked.incoming _).trans
      (edgesWhere_index hOwn fun x hx => (h.wellFormed.tag_of_mem hx).2)
  have hLoops : g.loopsAt id =
      (g.edgeList.filter fun x => x.2.source = id && x.2.target = id).map Prod.fst := by
    rw [loopsAt, hOut, List.filter_map, List.filter_filter]
    refine congrArg (List.map Prod.fst) (List.filter_congr fun x hx => ?_)
    rw [Function.comp_apply, mem_edgeList.mp hx, Bool.and_comm]
    rfl
  have hList : l = g.edgeList.filter fun x => x.2.source = id || x.2.target = id :=
    hEdges.unique (g.enumerates_incident id)
  -- A loop is on both lists and in the one list of edges once, which is what the count allows for.
  have hSum := g.incidentEdgeCount_add_loops id
  have hBoth := length_filter_or_add_and (fun x : EdgeId × Edge => decide (x.2.source = id))
    (fun x => decide (x.2.target = id)) g.edgeList
  rw [hOut, hIn, hLoops, List.length_map, List.length_map, List.length_map] at hSum
  rw [hList]
  omega

/-- At a block at which no edge begins or ends none is counted. -/
theorem incidentEdgeCount_eq_zero (h : g.Sound) (hOwn : id.graph = g.tag)
    (hApart : ∀ x ∈ g.edgeList, x.2.source ≠ id ∧ x.2.target ≠ id) :
    g.incidentEdgeCount id = 0 := by
  refine incidentEdgeCount_eq_length (l := []) h hOwn ⟨fun i e => ?_, .nil⟩
  rw [iff_false_left List.not_mem_nil]
  rintro ⟨hEdge, hEnd⟩
  exact not_or.mpr (hApart (i, e) (mem_edgeList.mpr hEdge)) hEnd

end BlockGraph

end Disassembly
