import Disassembly.Proofs.Frame

/-! What a change of a module does to the part that it names, list by list and answer by answer.
New things come last, what is taken out leaves the order of the rest, and the answers that meet
the part change by that part alone. -/
namespace Disassembly

namespace BlockGraph

variable {g g' : BlockGraph} {endOf : Edge → BlockId} {b : BlockId}

/-- A block that resolves and is the end of no edge has an empty list of edges, not an error. -/
theorem edgesBy_eq_nil (kind : Option EdgeKind) (hLive : g.containsBlock b = true)
    (hApart : ∀ x ∈ g.edgeList, endOf x.2 ≠ b) : g.edgesBy endOf b kind = .ok [] := by
  rw [edgesBy, if_pos hLive, List.filter_eq_nil_iff.mpr]
  intro x hx
  simp [hApart x hx]

/-- The answer only reads whether the block resolves and what edges there are. -/
theorem edgesBy_congr (kind : Option EdgeKind)
    (hBlocks : g'.containsBlock b = g.containsBlock b) (hEdges : g'.edgeList = g.edgeList) :
    g'.edgesBy endOf b kind = g.edgesBy endOf b kind := by
  rw [edgesBy, edgesBy, hBlocks, hEdges]

/-- An edge that comes last in the graph comes last at its end too, if its kind is asked for. A
block that does not resolve gives the same error before and after. -/
theorem edgesBy_append {id : EdgeId} {e : Edge} (endOf : Edge → BlockId)
    (kind : Option EdgeKind)
    (hBlocks : g'.containsBlock (endOf e) = g.containsBlock (endOf e))
    (hEdges : g'.edgeList = g.edgeList ++ [(id, e)]) :
    g'.edgesBy endOf (endOf e) kind = (g.edgesBy endOf (endOf e) kind).map fun edges =>
      edges ++ if kind.all (· = e.kind) then [(id, e)] else [] := by
  rw [edgesBy, edgesBy, hBlocks, hEdges, List.filter_append]
  cases g.containsBlock (endOf e) with
  | false => rfl
  | true => simp [List.filter_cons, Except.map]

/-- An edge that is taken out of the graph is taken out of every answer, and the rest of the answer
stays in order. This includes the blocks at which the edge never was. -/
theorem edgesBy_filter {id : EdgeId} (kind : Option EdgeKind)
    (hBlocks : g'.containsBlock b = g.containsBlock b)
    (hEdges : g'.edgeList = g.edgeList.filter (·.1 ≠ id)) :
    g'.edgesBy endOf b kind =
      (g.edgesBy endOf b kind).map fun edges => edges.filter (·.1 ≠ id) := by
  rw [edgesBy, edgesBy, hBlocks, hEdges]
  cases g.containsBlock b with
  | false => rfl
  | true => exact congrArg Except.ok (List.filter_comm ..)

end BlockGraph

namespace Module

/-- A block was made from attributes. It has no edges yet. -/
structure BlockAdded (m : Module) (kind : BlockKind) (attributes : BlockAttributes)
    (id : BlockId) (m' : Module) : Prop where
  fresh : m.blocks.block? id = none
  blocks : ∃ b, Block.ofAttributes kind attributes = .ok b ∧
    m'.blocks.blockList = m.blocks.blockList ++ [(id, b)]
  leaving : ∀ kind, m'.leaving id kind = .ok []
  entering : ∀ kind, m'.entering id kind = .ok []

/-- A block was taken out. No edge went with it. -/
structure BlockRemoved (m : Module) (id : BlockId) (b : Block) (m' : Module) : Prop where
  found : m.blocks.block? id = some b
  blocks : m'.blocks.blockList = m.blocks.blockList.filter (·.1 ≠ id)
  leaving : ∀ kind, m.leaving id kind = .ok []
  entering : ∀ kind, m.entering id kind = .ok []

/-- A block was given an address. It is the same in all else and keeps its edges. -/
structure BlockMoved (m : Module) (id : BlockId) (address : Option UInt64) (m' : Module) :
    Prop where
  blocks : ∃ b moved, m.blocks.block? id = some b ∧ b.withAddress address = .ok moved ∧
    moved.address = address ∧ (Item.ofBlock moved).SameAs (.ofBlock b) ∧
    m'.blocks.blockList = m.blocks.blockList.map fun e => if e.1 = id then (id, moved) else e
  leaving : ∀ kind, m'.leaving id kind = m.leaving id kind
  entering : ∀ kind, m'.entering id kind = m.entering id kind

/-- An edge was drawn. At both of its ends it comes last. -/
structure EdgeAdded (m : Module) (id : EdgeId) (e : Edge) (m' : Module) : Prop where
  fresh : m.blocks.edge? id = none
  edges : m'.blocks.edgeList = m.blocks.edgeList ++ [(id, e)]
  leaving : ∀ kind, m'.leaving e.source kind = (m.leaving e.source kind).map fun edges =>
    edges ++ if kind.all (· = e.kind) then [(id, e)] else []
  entering : ∀ kind, m'.entering e.target kind = (m.entering e.target kind).map fun edges =>
    edges ++ if kind.all (· = e.kind) then [(id, e)] else []

/-- An edge was taken out. At both of its ends the others stay in their order. -/
structure EdgeRemoved (m : Module) (id : EdgeId) (e : Edge) (m' : Module) : Prop where
  found : m.blocks.edge? id = some e
  edges : m'.blocks.edgeList = m.blocks.edgeList.filter (·.1 ≠ id)
  leaving : ∀ kind, m'.leaving e.source kind =
    (m.leaving e.source kind).map fun edges => edges.filter (·.1 ≠ id)
  entering : ∀ kind, m'.entering e.target kind =
    (m.entering e.target kind).map fun edges => edges.filter (·.1 ≠ id)

/-- A symbol was bound. It comes last under its name and among those of its block. -/
structure SymbolAdded (m : Module) (id : SymbolId) (s : Symbol) (m' : Module) : Prop where
  fresh : m.symbols.symbol? id = none
  symbols : m'.symbols.symbolList = m.symbols.symbolList ++ [(id, s)]
  named : m'.symbols.find s.name = m.symbols.find s.name ++ [(id, s)]
  referringTo : ∀ b, s.referent = .block b →
    m'.symbols.referringTo b = m.symbols.referringTo b ++ [(id, s)]

/-- A symbol was taken out. Under its name and among those of its block the others stay. -/
structure SymbolRemoved (m : Module) (id : SymbolId) (s : Symbol) (m' : Module) : Prop where
  found : m.symbols.symbol? id = some s
  symbols : m'.symbols.symbolList = m.symbols.symbolList.filter (·.1 ≠ id)
  named : m'.symbols.find s.name = (m.symbols.find s.name).filter (·.1 ≠ id)
  referringTo : ∀ b, m'.symbols.referringTo b = (m.symbols.referringTo b).filter (·.1 ≠ id)

/-- What a change with this answer does to the part that it names. -/
def Operation.Effect : {α : Type} → Operation α → α → Module → Module → Prop
  | _, .addBlock kind attributes, id, m, m' => m.BlockAdded kind attributes id m'
  | _, .addCodeBlock address size, id, m, m' =>
    m.BlockAdded .code { address := some address, size := some size } id m'
  | _, .addDataBlock address size, id, m, m' =>
    m.BlockAdded .data { address := some address, size := some size } id m'
  | _, .addProxyBlock, id, m, m' => m.BlockAdded .proxy {} id m'
  | _, .addEdge source target label, id, m, m' => m.EdgeAdded id ⟨source, target, label⟩ m'
  | _, .removeEdge id, e, m, m' => m.EdgeRemoved id e m'
  | _, .setBlockAddress id address, _, m, m' => m.BlockMoved id address m'
  | _, .removeBlock id, b, m, m' => m.BlockRemoved id b m'
  | _, .setEntryPoint entry, _, m, m' => m' = { m with entryPoint := entry }
  | _, .addSymbol name referent, id, m, m' => m.SymbolAdded id ⟨name, referent, false⟩ m'
  | _, .addSymbolAtEnd name block, id, m, m' => m.SymbolAdded id ⟨name, .block block, true⟩ m'
  | _, .removeSymbol id, s, m, m' => m.SymbolRemoved id s m'
  | _, .addSection x, id, m, m' => m.sections.section? id = none ∧
    m'.sections.sectionList = m.sections.sectionList ++ [(id, x)]
  | _, .removeSection id, found, m, m' => m.sections.section? id = found ∧
    m'.sections.sectionList = m.sections.sectionList.filter (·.1 ≠ id)
  | _, .setAux name table, old, m, m' => m.auxData.get? name = old ∧
    m' = { m with auxData := m.auxData.insert name table }
  | _, .removeAux name, old, m, m' => m.auxData.get? name = old ∧
    m' = { m with auxData := m.auxData.erase name }

variable {m m' : Module} {α : Type} {a : α}

/-- No edge is at a block that does not resolve. -/
theorem Sound.edge_apart (h : m.Sound) {id : BlockId} (hGone : m.blocks.block? id = none)
    {x : EdgeId × Edge} (hx : x ∈ m.blocks.edgeList) : x.2.source ≠ id ∧ x.2.target ≠ id := by
  have hLive := BlockGraph.mem_edgeList.mp hx
  obtain ⟨b, hSource, -⟩ := h.wellFormed.blocks.source _ _ hLive
  obtain ⟨b', hTarget⟩ := h.wellFormed.blocks.target _ _ hLive
  constructor
  · rintro rfl
    cases hGone.symm.trans hSource
  · rintro rfl
    cases hGone.symm.trans hTarget

/-- A block that was made comes last. Its id was free, so no edge can have been at it before. -/
theorem blockAdded {kind : BlockKind} {attributes : BlockAttributes} {id : BlockId} (h : m.Sound)
    (hEdit : m.addBlock kind attributes = .ok id m') : m.BlockAdded kind attributes id m' := by
  have h' := sound_run h (.addBlock kind attributes) hEdit
  have hFresh : m.blocks.block? id = none :=
    Option.map_eq_none_iff.mp ((change_addBlock hEdit).fresh h.wellFormed _ (.head _))
  obtain ⟨g, hg, -⟩ := onBlocks_eq_ok.mp hEdit
  obtain ⟨b, next, hMade, -⟩ := BlockGraph.addBlock_eq_ok.mp hg
  have hList := listing_addBlock h.wellFormed hEdit
  rw [Listing.addBlock, hMade] at hList
  have hBlocks : m'.blocks.blockList = m.blocks.blockList ++ [(id, b)] :=
    congrArg Listing.blocks hList
  have hEdges : m'.blocks.edgeList = m.blocks.edgeList := congrArg Listing.edges hList
  have hLive : m'.blocks.containsBlock id = true :=
    BlockGraph.containsBlock_iff.mpr ⟨b, find_eq_some_of_append BlockGraph.mem_blockList hBlocks⟩
  exact {
    fresh := hFresh
    blocks := ⟨b, hMade, hBlocks⟩
    leaving := fun kind => by
      rw [leaving_eq h']
      exact BlockGraph.edgesBy_eq_nil kind hLive fun x hx => (h.edge_apart hFresh (hEdges ▸ hx)).1
    entering := fun kind => by
      rw [entering_eq h']
      exact BlockGraph.edgesBy_eq_nil kind hLive fun x hx =>
        (h.edge_apart hFresh (hEdges ▸ hx)).2 }

/-- A block that was removed had no edges: the count that the removal looks at is that of the edges
at the block. -/
theorem blockRemoved {id : BlockId} {b : Block} (h : m.Sound)
    (hEdit : m.removeBlock id = .ok b m') : m.BlockRemoved id b m' := by
  obtain ⟨-, g, hg, -⟩ := removeBlock_eq_ok.mp hEdit
  obtain ⟨hb, -⟩ := BlockGraph.removeBlock_eq_ok.mp hg
  have hLive : m.blocks.containsBlock id = true := BlockGraph.containsBlock_iff.mpr ⟨b, hb⟩
  have hApart : ∀ x ∈ m.blocks.edgeList, x.2.source ≠ id ∧ x.2.target ≠ id := by
    intro x hx
    obtain ⟨hSource, hTarget⟩ :=
      BlockGraph.apart_of_removeBlock h.linked.blocks hg (BlockGraph.mem_edgeList.mp hx)
    exact ⟨fun hSame => hSource (hSame ▸ rfl), fun hSame => hTarget (hSame ▸ rfl)⟩
  exact {
    found := hb
    blocks := congrArg Listing.blocks (listing_removeBlock hEdit)
    leaving := fun kind => by
      rw [leaving_eq h]
      exact BlockGraph.edgesBy_eq_nil kind hLive fun x hx => (hApart x hx).1
    entering := fun kind => by
      rw [entering_eq h]
      exact BlockGraph.edgesBy_eq_nil kind hLive fun x hx => (hApart x hx).2 }

/-- A block that takes an address has that address. -/
theorem address_of_withAddress {b moved : Block} {address : Option UInt64}
    (h : b.withAddress address = .ok moved) : moved.address = address := by
  cases b <;> cases h <;> rfl

/-- A block that was moved keeps its place in the list. The edges are not touched, and the block
resolves before and after. -/
theorem blockMoved {id : BlockId} {address : Option UInt64} {u : Unit} (h : m.Sound)
    (hEdit : m.setBlockAddress id address = .ok u m') : m.BlockMoved id address m' := by
  have h' := sound_run h (.setBlockAddress id address) hEdit
  have hEdges : m'.blocks.edgeList = m.blocks.edgeList :=
    congrArg Listing.edges (listing_setBlockAddress hEdit)
  obtain ⟨g, hg, rfl⟩ := onBlocks_eq_ok.mp hEdit
  obtain ⟨b, moved, hb, hMoved, hBlocks⟩ := BlockGraph.blockList_setBlockAddress hg
  obtain ⟨b', hb', -⟩ := BlockGraph.keeps_setBlockAddress hg id b hb
  have hLive : g.containsBlock id = m.blocks.containsBlock id :=
    (BlockGraph.containsBlock_iff.mpr ⟨b', hb'⟩).trans
      (BlockGraph.containsBlock_iff.mpr ⟨b, hb⟩).symm
  exact {
    blocks := ⟨b, moved, hb, hMoved, address_of_withAddress hMoved, sameAs_of_withAddress hMoved,
      hBlocks⟩
    leaving := fun kind => by
      rw [leaving_eq h', leaving_eq h]
      exact BlockGraph.edgesBy_congr kind hLive hEdges
    entering := fun kind => by
      rw [entering_eq h', entering_eq h]
      exact BlockGraph.edgesBy_congr kind hLive hEdges }

/-- An edge that was drawn comes last, in the graph and at each of its ends. -/
theorem edgeAdded {source target : BlockId} {label : EdgeLabel} {id : EdgeId} (h : m.Sound)
    (hEdit : m.addEdge source target label = .ok id m') :
    m.EdgeAdded id ⟨source, target, label⟩ m' := by
  have h' := sound_run h (.addEdge source target label) hEdit
  have hFresh : m.blocks.edge? id = none :=
    Option.map_eq_none_iff.mp ((change_addEdge hEdit).fresh h.wellFormed _ (.head _))
  have hFrame := listing_sameBut_run h (.addEdge source target label) hEdit
  have hEdges := congrArg Listing.edges (listing_addEdge h.wellFormed hEdit)
  exact {
    fresh := hFresh
    edges := hEdges
    leaving := fun kind => by
      rw [leaving_eq h', leaving_eq h]
      exact BlockGraph.edgesBy_append Edge.source kind (hFrame.containsBlock rfl) hEdges
    entering := fun kind => by
      rw [entering_eq h', entering_eq h]
      exact BlockGraph.edgesBy_append Edge.target kind (hFrame.containsBlock rfl) hEdges }

/-- An edge that was removed is gone from the graph and from both of its ends. -/
theorem edgeRemoved {id : EdgeId} {e : Edge} (h : m.Sound)
    (hEdit : m.removeEdge id = .ok e m') : m.EdgeRemoved id e m' := by
  have h' := sound_run h (.removeEdge id) hEdit
  have hFrame := listing_sameBut_run h (.removeEdge id) hEdit
  have hEdges := congrArg Listing.edges (listing_removeEdge hEdit)
  exact {
    found := edge?_of_removeEdge hEdit
    edges := hEdges
    leaving := fun kind => by
      rw [leaving_eq h', leaving_eq h]
      exact BlockGraph.edgesBy_filter kind (hFrame.containsBlock rfl) hEdges
    entering := fun kind => by
      rw [entering_eq h', entering_eq h]
      exact BlockGraph.edgesBy_filter kind (hFrame.containsBlock rfl) hEdges }

/-- A symbol that was bound comes last. This covers both ways to bind one, at a block and at its
end. -/
theorem symbolAdded {s : Symbol} {id : SymbolId} (h : m.Sound)
    (hEdit : (do let m ← get; onSymbols (SymbolTable.bind m.blocks s) : Edit Module SymbolId) m
      = .ok id m') : m.SymbolAdded id s m' := by
  obtain ⟨t, ht, rfl⟩ := bindSymbol_eq_ok.mp hEdit
  have h' := h.withSymbols (SymbolTable.sound_bind h.symbols ht)
  have hFresh : m.symbols.symbol? id = none :=
    Option.map_eq_none_iff.mp ((change_bindSymbol hEdit).fresh h.wellFormed _ (.head _))
  have hSymbols : t.symbolList = m.symbols.symbolList ++ [(id, s)] :=
    congrArg Listing.symbols (listing_bindSymbol h.wellFormed hEdit)
  exact {
    fresh := hFresh
    symbols := hSymbols
    named := by
      rw [find_eq h', find_eq h]
      simp [hSymbols]
    referringTo := fun b hReferent => by
      simp [SymbolTable.referringTo, hSymbols, hReferent] }

/-- A symbol that was removed is gone from the list, from its name and from its block. -/
theorem symbolRemoved {id : SymbolId} {s : Symbol} (h : m.Sound)
    (hEdit : m.removeSymbol id = .ok s m') : m.SymbolRemoved id s m' := by
  have h' := sound_run h (.removeSymbol id) hEdit
  have hSymbols : m'.symbols.symbolList = m.symbols.symbolList.filter (·.1 ≠ id) :=
    congrArg Listing.symbols (listing_removeSymbol hEdit)
  exact {
    found := symbol?_of_removeSymbol hEdit
    symbols := hSymbols
    named := by
      rw [find_eq h', find_eq h, hSymbols]
      exact List.filter_comm ..
    referringTo := fun b => by
      rw [SymbolTable.referringTo, SymbolTable.referringTo, hSymbols]
      exact List.filter_comm .. }

/-- One step: in a sound module a change does to the part that it names what is said of it. -/
theorem effect_run (h : m.Sound) (op : Operation α) (hEdit : op.run m = .ok a m') :
    op.Effect a m m' := by
  cases op with
  | addBlock | addCodeBlock | addDataBlock | addProxyBlock => exact blockAdded h hEdit
  | addEdge => exact edgeAdded h hEdit
  | removeEdge => exact edgeRemoved h hEdit
  | setBlockAddress => exact blockMoved h hEdit
  | removeBlock => exact blockRemoved h hEdit
  | setEntryPoint => exact (setEntryPoint_eq_ok.mp hEdit).2
  | addSymbol | addSymbolAtEnd => exact symbolAdded h hEdit
  | removeSymbol => exact symbolRemoved h hEdit
  | addSection =>
      have hFresh := (change_addSection hEdit).fresh h.wellFormed _ (.head _)
      exact ⟨Option.map_eq_none_iff.mp hFresh,
        congrArg Listing.sections (listing_addSection h.wellFormed hEdit)⟩
  | removeSection id =>
      change onSections (AddressSpace.removeSection id) m = .ok a m' at hEdit
      obtain ⟨s, hs, -⟩ := onSections_eq_ok.mp hEdit
      obtain ⟨rfl, -⟩ := AddressSpace.removeSection_eq_ok.mp hs
      exact ⟨rfl, congrArg Listing.sections (listing_removeSection hEdit)⟩
  | setAux =>
      obtain ⟨rfl, hAfter⟩ := setAux_eq_ok.mp hEdit
      exact ⟨rfl, hAfter⟩
  | removeAux =>
      obtain ⟨rfl, hAfter⟩ := removeAux_eq_ok.mp hEdit
      exact ⟨rfl, hAfter⟩

end Module

end Disassembly
