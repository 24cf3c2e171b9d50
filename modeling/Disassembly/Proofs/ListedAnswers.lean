import Disassembly.Proofs.Listing

/-! The answers of a sound module, read off its listing. The lists of edges at a block and of
symbols under a name hold bare ids; what a caller meets on them is what passes a test among all
edges and all symbols, in their order. -/
namespace Disassembly

/-- Looking up the ids of entries gives those of the entries that are to be kept. -/
theorem filterMap_fst_eq_filter {ι β : Type} {l : List (ι × β)} {f : ι → Option (ι × β)}
    (keep : ι × β → Bool) (h : ∀ e ∈ l, f e.1 = if keep e then some e else none) :
    (l.map Prod.fst).filterMap f = l.filter keep := by
  induction l with
  | nil => rfl
  | cons head rest ih =>
      obtain ⟨hHead, hRest⟩ := List.forall_mem_cons.mp h
      rw [List.map_cons, List.filterMap_cons, hHead, ih hRest]
      cases hKeep : keep head <;> simp [hKeep]

namespace BlockGraph

variable {g : BlockGraph}

/-- A walk over the edges that pass a test shows those of the wanted kind, with the content that
they have in the store. -/
theorem toList_walk_edgesWhere (g : BlockGraph) (test : Edge → Bool) (kind : Option EdgeKind) :
    (g.walk (g.edgesWhere test) kind).toList =
      g.edgeList.filter fun e => test e.2 && kind.all (· = e.2.kind) := by
  have hShow : ∀ e ∈ g.edgeList.filter (fun e => test e.2),
      (g.walk [] kind).show? e.1 =
        if kind.all (· = e.2.kind) then some e else none := by
    intro e he
    have hLive : g.edges.get? e.1.index = some e.2 := mem_edgeList.mp (List.mem_filter.mp he).1
    rw [EdgeWalk.show?, walk, hLive]
    rfl
  change (g.edgesWhere test).filterMap (g.walk [] kind).show? = _
  rw [edgesWhere_eq_filter, filterMap_fst_eq_filter _ hShow, List.filter_filter]
  exact List.filter_congr fun e _ => Bool.and_comm _ _

/-- The edges of one kind, or of every kind, that have a block at one of their ends. -/
def edgesBy (g : BlockGraph) (endOf : Edge → BlockId) (id : BlockId) (kind : Option EdgeKind) :
    Except Error (List (EdgeId × Edge)) :=
  if g.containsBlock id then
    .ok (g.edgeList.filter fun e => endOf e.2 = id && kind.all (· = e.2.kind))
  else .error (.unknownBlock id)

/-- Both ends of a listed edge are under the tag of the graph. -/
theorem WellFormed.tag_of_mem (h : g.WellFormed) {x : EdgeId × Edge} (hx : x ∈ g.edgeList) :
    x.2.source.graph = g.tag ∧ x.2.target.graph = g.tag := by
  obtain ⟨b, hSource, -⟩ := h.source _ _ (mem_edgeList.mp hx)
  obtain ⟨b', hTarget⟩ := h.target _ _ (mem_edgeList.mp hx)
  exact ⟨(block?_eq_some_iff.mp hSource).1, (block?_eq_some_iff.mp hTarget).1⟩

/-- Edges are listed by the index of a block alone, but all ends are under the tag of the graph. -/
theorem toList_listed {endOf : Edge → BlockId} {lists : Adjacency} (id : BlockId)
    (kind : Option EdgeKind) (hOwn : ∀ e ∈ g.edgeList, (endOf e.2).graph = g.tag)
    (hLists : ∀ i, lists.edgesAt i = g.edgesWhere fun e => (endOf e).index = i) :
    (if g.containsBlock id then .ok (g.walk (lists.edgesAt id.index) kind)
      else .error (.unknownBlock id) : Except Error EdgeWalk).map EdgeWalk.toList =
      g.edgesBy endOf id kind := by
  rw [edgesBy]
  cases hLive : g.containsBlock id with
  | false => rfl
  | true =>
      have hId := tag_of_containsBlock hLive
      rw [hLists]
      change Except.ok (g.walk _ kind).toList = Except.ok _
      rw [toList_walk_edgesWhere]
      refine congrArg Except.ok (List.filter_congr fun e he => ?_)
      simp only [BlockId.index_eq_iff ((hOwn e he).trans hId.symm)]

end BlockGraph

namespace Module

variable {m m' : Module}

/-- The edges that leave a block, of one kind or of every kind, as a caller meets them. -/
def leaving (m : Module) (id : BlockId) (kind : Option EdgeKind) :
    Except Error (List (EdgeId × Edge)) :=
  (m.blocks.outgoingEdges id kind).map EdgeWalk.toList

/-- The edges that enter a block, of one kind or of every kind, as a caller meets them. -/
def entering (m : Module) (id : BlockId) (kind : Option EdgeKind) :
    Except Error (List (EdgeId × Edge)) :=
  (m.blocks.incomingEdges id kind).map EdgeWalk.toList

/-- The edges that leave a block are those of all edges that begin there, in their order. -/
theorem leaving_eq (h : m.Sound) (id : BlockId) (kind : Option EdgeKind) :
    m.leaving id kind = m.blocks.edgesBy Edge.source id kind := by
  refine BlockGraph.toList_listed id kind (fun e he => ?_) h.linked.blocks.outgoing
  exact (h.wellFormed.blocks.tag_of_mem he).1

/-- The edges that enter a block are those of all edges that end there. -/
theorem entering_eq (h : m.Sound) (id : BlockId) (kind : Option EdgeKind) :
    m.entering id kind = m.blocks.edgesBy Edge.target id kind := by
  refine BlockGraph.toList_listed id kind (fun e he => ?_) h.linked.blocks.incoming
  exact (h.wellFormed.blocks.tag_of_mem he).2

/-- The symbols of a name are those of all symbols that have it. No id on the list is skipped, since
each is in the store. -/
theorem find_eq (h : m.Sound) (name : String) :
    m.symbols.find name = m.symbols.symbolList.filter fun s => s.2.name = name := by
  have hShow : ∀ s ∈ m.symbols.symbolList.filter (fun s => s.2.name = name),
      (m.symbols.symbol? s.1).map (fun x => (s.1, x)) = if true then some s else none := by
    intro s hs
    rw [SymbolTable.mem_symbolList.mp (List.mem_filter.mp hs).1]
    rfl
  rw [SymbolTable.find, h.linked.symbols, SymbolTable.symbolsNamed_eq_filter,
    filterMap_fst_eq_filter (fun _ => true) hShow, List.filter_true]

end Module

end Disassembly
