import Disassembly.Proofs.EdgeCount
import Disassembly.Proofs.Effects

/-! Taking out again what was added. The removal succeeds at once, since nothing can have come to
depend on a new thing, and then the module is what it was but for one counter. -/
namespace Disassembly

/-- What was put behind a list under a new id is all that is taken out again under that id. -/
theorem filter_ne_append_fresh {ι α : Type} [DecidableEq ι] {entries : List (ι × α)} {id : ι}
    (v : α) (h : ∀ x ∈ entries, x.1 ≠ id) :
    (entries ++ [(id, v)]).filter (·.1 ≠ id) = entries := by
  rw [filter_ne_append, List.filter_eq_self]
  exact fun x hx => decide_eq_true (h x hx)

theorem Edit.map_of_ok {σ α β : Type} {x : Edit σ α} {a : α} {s t : σ} (f : α → β)
    (h : x s = .ok a t) : (do return f (← x) : Edit σ β) s = .ok (f a) t := by
  rw [bind_of_ok h]
  rfl

namespace Module

/-- Takes out the thing of an id, of whatever kind. -/
def remove : ItemId → Edit Module (Option Item)
  | .ofBlock id => do return some (.ofBlock (← removeBlock id))
  | .ofEdge id => do return some (.ofEdge (← removeEdge id))
  | .ofSymbol id => do return some (.ofSymbol (← removeSymbol id))
  | .ofSection id => do return (← removeSection id).map .ofSection

/-- The second module holds what the first one does and answers as it does. It has only given out
one more id. -/
structure Undone (m : Module) (id : ItemId) (m' : Module) : Prop where
  listing : m'.listing = m.listing
  answers : m.SameAnswers m'
  counter : ∀ store, m'.counter store =
    if store = id.slot.store then m.counter store + 1 else m.counter store

variable {m m' m'' : Module} {α : Type} {a : α}

/-- A change that gives out an id, and one that takes it back, come to nothing but a counter that
has moved on. -/
theorem undone_of_changes {id : ItemId} (h : m.Sound) (h'' : m''.Sound)
    (hGive : Change m m' [id] []) (hTake : Change m' m'' [] [id])
    (hList : m''.listing = m.listing) : m.Undone id m'' where
  listing := hList
  answers := sameAnswers_of_listing_eq hList.symm h.linked h''.linked
  counter store := by
    cases hGive with
    | give _ _ _ hNext hOthers _ =>
        cases hTake with
        | take _ hStay _ _ =>
            rw [hStay]
            split
            · rename_i hStore
              rw [hStore]
              exact (nextIndex?_eq_some_iff.mp hNext).2
            · exact hOthers store ‹_›

/-- Nothing refers to a block that does not resolve. -/
theorem Sound.not_refers (h : m.Sound) {id : BlockId} (hGone : m.blocks.block? id = none) :
    ¬m.Refers id := by
  rintro (hEntry | ⟨i, s, hs, hReferent⟩)
  · obtain ⟨b, hb, -⟩ := h.wellFormed.entryPoint id hEntry
    cases hGone.symm.trans hb
  · obtain ⟨b, hb⟩ := h.wellFormed.symbols.referent i s id hs hReferent
    cases hGone.symm.trans hb

/-- A new block has no edges and nothing refers to it, so it can be taken out at once. -/
theorem undo_addBlock {kind : BlockKind} {attributes : BlockAttributes} {id : BlockId}
    (h : m.Sound) (hEdit : m.addBlock kind attributes = .ok id m') :
    ∃ x m'', m'.item? (.ofBlock id) = some x ∧ remove (.ofBlock id) m' = .ok (some x) m'' ∧
      m.Undone (.ofBlock id) m'' := by
  have h' := sound_run h (.addBlock kind attributes) hEdit
  have hList := listing_addBlock h.wellFormed hEdit
  obtain ⟨hFresh, ⟨b, hMade, hBlocks⟩, -, -⟩ := blockAdded h hEdit
  rw [Listing.addBlock, hMade] at hList
  have hb : m'.blocks.block? id = some b :=
    find_eq_some_of_append BlockGraph.mem_blockList hBlocks
  have hEdges : m'.blocks.edgeList = m.blocks.edgeList := congrArg Listing.edges hList
  -- The id was free before, so no edge of the module can have the new block as an end.
  have hCount : m'.blocks.incidentEdgeCount id = 0 :=
    BlockGraph.incidentEdgeCount_eq_zero h'.blocks (BlockGraph.block?_eq_some_iff.mp hb).1
      fun x hx => h.edge_apart hFresh (hEdges ▸ hx)
  have hFree : ¬m'.Refers id := by
    obtain ⟨g, -, rfl⟩ := onBlocks_eq_ok.mp hEdit
    exact h.not_refers hFresh
  have hRemove : m'.removeBlock id = .ok b _ :=
    removeBlock_eq_ok.mpr ⟨hFree, _, BlockGraph.removeBlock_eq_ok.mpr ⟨hb, hCount, rfl⟩, rfl⟩
  refine ⟨.ofBlock b, _, congrArg (Option.map _) hb, Edit.map_of_ok _ hRemove, ?_⟩
  refine undone_of_changes h (sound_run h' (.removeBlock id) hRemove) (change_addBlock hEdit)
    (change_removeBlock hRemove) ?_
  rw [listing_removeBlock hRemove, hList]
  exact congrArg (fun blocks => { m.listing with blocks })
    (filter_ne_append_fresh _ (fst_ne_of_find_eq_none BlockGraph.mem_blockList hFresh))

/-- A new edge can be taken out at once, and comes off both of its lists. -/
theorem undo_addEdge {source target : BlockId} {label : EdgeLabel} {id : EdgeId} (h : m.Sound)
    (hEdit : m.addEdge source target label = .ok id m') :
    ∃ x m'', m'.item? (.ofEdge id) = some x ∧ remove (.ofEdge id) m' = .ok (some x) m'' ∧
      m.Undone (.ofEdge id) m'' := by
  have h' := sound_run h (.addEdge source target label) hEdit
  have hList := listing_addEdge h.wellFormed hEdit
  obtain ⟨hFresh, hEdges, -, -⟩ := edgeAdded h hEdit
  have he : m'.blocks.edge? id = some ⟨source, target, label⟩ :=
    find_eq_some_of_append BlockGraph.mem_edgeList hEdges
  have hRemove : m'.removeEdge id = .ok _ _ :=
    onBlocks_eq_ok.mpr ⟨_, BlockGraph.removeEdge_eq_ok.mpr ⟨he, rfl⟩, rfl⟩
  refine ⟨.ofEdge _, _, congrArg (Option.map _) he, Edit.map_of_ok _ hRemove, ?_⟩
  refine undone_of_changes h (sound_run h' (.removeEdge id) hRemove) (change_addEdge hEdit)
    (change_removeEdge hRemove) ?_
  rw [listing_removeEdge hRemove, hList]
  exact congrArg (fun edges => { m.listing with edges })
    (filter_ne_append_fresh _ (fst_ne_of_find_eq_none BlockGraph.mem_edgeList hFresh))

/-- A new symbol can be taken out at once, since nothing refers to symbols. -/
theorem undo_bindSymbol {s : Symbol} {id : SymbolId} (h : m.Sound)
    (hEdit : (do let m ← get; onSymbols (SymbolTable.bind m.blocks s) : Edit Module SymbolId) m
      = .ok id m') :
    ∃ x m'', m'.item? (.ofSymbol id) = some x ∧ remove (.ofSymbol id) m' = .ok (some x) m'' ∧
      m.Undone (.ofSymbol id) m'' := by
  have hList := listing_bindSymbol h.wellFormed hEdit
  obtain ⟨hFresh, hSymbols, -, -⟩ := symbolAdded h hEdit
  have hs : m'.symbols.symbol? id = some s :=
    find_eq_some_of_append SymbolTable.mem_symbolList hSymbols
  have h' : m'.Sound := by
    obtain ⟨t, ht, rfl⟩ := bindSymbol_eq_ok.mp hEdit
    exact h.withSymbols (SymbolTable.sound_bind h.symbols ht)
  have hRemove : m'.removeSymbol id = .ok s _ :=
    onSymbols_eq_ok.mpr ⟨_, SymbolTable.removeSymbol_eq_ok.mpr ⟨hs, rfl⟩, rfl⟩
  refine ⟨.ofSymbol s, _, congrArg (Option.map _) hs, Edit.map_of_ok _ hRemove, ?_⟩
  refine undone_of_changes h (sound_run h' (.removeSymbol id) hRemove) (change_bindSymbol hEdit)
    (change_removeSymbol hRemove) ?_
  rw [listing_removeSymbol hRemove, hList]
  exact congrArg (fun symbols => { m.listing with symbols })
    (filter_ne_append_fresh _ (fst_ne_of_find_eq_none SymbolTable.mem_symbolList hFresh))

/-- A new section can be taken out at once, as any section can. -/
theorem undo_addSection {x : Section} {id : SectionId} (h : m.Sound)
    (hEdit : m.addSection x = .ok id m') :
    ∃ x m'', m'.item? (.ofSection id) = some x ∧ remove (.ofSection id) m' = .ok (some x) m'' ∧
      m.Undone (.ofSection id) m'' := by
  have h' := sound_run h (.addSection x) hEdit
  have hList := listing_addSection h.wellFormed hEdit
  obtain ⟨hFresh, hSections⟩ := effect_run h (.addSection x) hEdit
  have hx : m'.sections.section? id = some x :=
    find_eq_some_of_append AddressSpace.mem_sectionList hSections
  have hRemove : m'.removeSection id = .ok (some x) _ :=
    onSections_eq_ok.mpr ⟨_, AddressSpace.removeSection_eq_ok.mpr ⟨hx.symm, rfl⟩, rfl⟩
  refine ⟨.ofSection x, _, congrArg (Option.map _) hx, Edit.map_of_ok _ hRemove, ?_⟩
  refine undone_of_changes h (sound_run h' (.removeSection id) hRemove) (change_addSection hEdit)
    (change_removeSection hRemove) ?_
  rw [listing_removeSection hRemove, hList]
  exact congrArg (fun sections => { m.listing with sections })
    (filter_ne_append_fresh _ (fst_ne_of_find_eq_none AddressSpace.mem_sectionList hFresh))

/-- Whatever a change gives out can be taken out again at once. -/
theorem undo_run (h : m.Sound) (op : Operation α) (hEdit : op.run m = .ok a m') :
    ∀ id ∈ op.gives a, ∃ x m'', m'.item? id = some x ∧ remove id m' = .ok (some x) m'' ∧
      m.Undone id m'' := by
  cases op with
  | addBlock | addCodeBlock | addDataBlock | addProxyBlock =>
      exact List.forall_mem_singleton.mpr (undo_addBlock h hEdit)
  | addEdge => exact List.forall_mem_singleton.mpr (undo_addEdge h hEdit)
  | addSymbol | addSymbolAtEnd => exact List.forall_mem_singleton.mpr (undo_bindSymbol h hEdit)
  | addSection => exact List.forall_mem_singleton.mpr (undo_addSection h hEdit)
  | removeEdge | setBlockAddress | removeBlock | setEntryPoint | removeSymbol | removeSection |
    setAux | removeAux => nofun

end Module

end Disassembly
