import Disassembly.Proofs.Undo

/-! Which blocks can be removed. A block must be live, and nothing may name it: not the entry point,
no symbol and no edge. Otherwise the first of these reasons is told. Once all that names a block is
taken out, in whatever order, the block can be removed. -/
namespace Disassembly

/-- Something that names a block. -/
inductive Tie where
  | edge (id : EdgeId)
  | symbol (id : SymbolId)
  | entryPoint
deriving DecidableEq

namespace Module

variable {m m' : Module} {id : BlockId}

/-- All that names a block. An edge does so once, even if both of its ends are there. -/
def Listing.ties (l : Listing) (id : BlockId) : List Tie :=
  (l.edges.filter fun x => x.2.source = id || x.2.target = id).map (fun x => .edge x.1) ++
    ((l.symbols.filter fun x => x.2.referent = .block id).map (fun x => .symbol x.1) ++
      (l.entryPoint.toList.filter (· = id)).map fun _ => .entryPoint)

/-- Takes out what names a block. -/
def cut : Tie → Edit Module Unit
  | .edge id => do let _ ← removeEdge id
  | .symbol id => do let _ ← removeSymbol id
  | .entryPoint => setEntryPoint none

/-- A live block that nothing names. -/
structure Removable (m : Module) (id : BlockId) : Prop where
  live : ∃ b, m.blocks.block? id = some b
  entryPoint : m.entryPoint ≠ some id
  symbols : ∀ i s, m.symbols.symbol? i = some s → s.referent ≠ .block id
  edges : ∀ i e, m.blocks.edge? i = some e → e.source ≠ id ∧ e.target ≠ id

/-- Why a block cannot be removed. A reason counts when those before it do not hold. Of symbols
the one of the lowest index is told, and of edges how many there are. -/
inductive RemovalFault (m : Module) (id : BlockId) : Error → Prop where
  | unknown (hGone : m.blocks.block? id = none) : RemovalFault m id (.unknownBlock id)
  | entryPoint {b : Block} (hLive : m.blocks.block? id = some b)
      (hEntry : m.entryPoint = some id) : RemovalFault m id (.blockReferenced id .entryPoint)
  | symbol {b : Block} {first : SymbolId} {s : Symbol} (hLive : m.blocks.block? id = some b)
      (hEntry : m.entryPoint ≠ some id) (hSymbol : m.symbols.symbol? first = some s)
      (hReferent : s.referent = .block id)
      (hFirst : ∀ i s', m.symbols.symbol? i = some s' → s'.referent = .block id →
        first.index ≤ i.index) : RemovalFault m id (.blockReferenced id (.symbol s.name))
  | edges {b : Block} {l : List (EdgeId × Edge)} (hLive : m.blocks.block? id = some b)
      (hEntry : m.entryPoint ≠ some id)
      (hSymbols : ∀ i s, m.symbols.symbol? i = some s → s.referent ≠ .block id)
      (hEdges : Enumerates m.blocks.edge? EdgeId.index
        (fun e => e.source = id ∨ e.target = id) l)
      (hSome : l ≠ []) : RemovalFault m id (.blockHasEdges id l.length)

/-- The symbols that name a block, in the order of their indices. This order decides which of them a
refusal tells. -/
theorem enumerates_referringTo (m : Module) (id : BlockId) :
    Enumerates m.symbols.symbol? SymbolId.index (fun s => s.referent = .block id)
      (m.symbols.referringTo id) :=
  (m.symbols.enumerates_symbolList fun s => s.referent = .block id).congr
    fun _ => decide_eq_true_iff

/-- There is always a verdict. -/
theorem removable_or_fault (m : Module) (id : BlockId) :
    m.Removable id ∨ ∃ e, m.RemovalFault id e := by
  -- The questions are asked in the order of the reasons, each under the answers so far.
  cases hBlock : m.blocks.block? id with
  | none => exact .inr ⟨_, .unknown hBlock⟩
  | some b =>
      by_cases hEntry : m.entryPoint = some id
      · exact .inr ⟨_, .entryPoint hBlock hEntry⟩
      have hNaming := m.enumerates_referringTo id
      cases hHead : (m.symbols.referringTo id).head? with
      | some first =>
          obtain ⟨⟨hSymbol, hReferent⟩, hFirst⟩ := hNaming.head?_eq_some_iff.mp hHead
          exact .inr ⟨_, .symbol hBlock hEntry hSymbol hReferent hFirst⟩
      | none =>
          have hSymbols := hNaming.eq_nil_iff.mp (List.head?_eq_none_iff.mp hHead)
          have hIncident := m.blocks.enumerates_incident id
          by_cases hNone : (m.blocks.edgeList.filter fun x =>
              x.2.source = id || x.2.target = id) = []
          · exact .inl ⟨⟨b, hBlock⟩, hEntry, hSymbols,
              fun i e he => not_or.mp (hIncident.eq_nil_iff.mp hNone i e he)⟩
          · exact .inr ⟨_, .edges hBlock hEntry hSymbols hIncident hNone⟩

/-- A live block that nothing names is removed. The removal counts edges in the derived lists while
the condition is about stored edges, which agree in a sound module. -/
theorem removeBlock_of_removable (h : m.Sound) (hFree : m.Removable id) :
    ∃ b m', m.blocks.block? id = some b ∧ m.removeBlock id = .ok b m' := by
  obtain ⟨b, hLive⟩ := hFree.live
  have hCount : m.blocks.incidentEdgeCount id = 0 :=
    BlockGraph.incidentEdgeCount_eq_zero h.blocks (BlockGraph.block?_eq_some_iff.mp hLive).1
      fun x hx => hFree.edges x.1 x.2 (BlockGraph.mem_edgeList.mp hx)
  have hUnnamed : ¬m.Refers id := by
    rintro (hEntry | ⟨i, s, hs, hReferent⟩)
    · exact hFree.entryPoint hEntry
    · exact hFree.symbols ⟨i⟩ s hs hReferent
  exact ⟨b, _, hLive, removeBlock_eq_ok.mpr
    ⟨hUnnamed, _, BlockGraph.removeBlock_eq_ok.mpr ⟨hLive, hCount, rfl⟩, rfl⟩⟩

/-- A live block that the entry point or a symbol names is refused for that reason, before its edges
are counted. -/
theorem removeBlock_of_referrer {b : Block} {r : Referrer} (hLive : m.blocks.block? id = some b)
    (hReferrer : m.referrer? id = some r) :
    m.removeBlock id = .error (.blockReferenced id r) m := by
  have hKnown := BlockGraph.containsBlock_iff.mpr ⟨b, hLive⟩
  rw [removeBlock, Edit.get_bind, Edit.refuseIf_bind_of_false (by simp [hKnown])]
  exact Edit.refuse_some_bind (congrArg (Option.map _) hReferrer)

/-- Each reason against a removal is the error that the removal fails with, in an unchanged module.
For edges this includes the number that is told. -/
theorem removeBlock_of_fault {e : Error} (h : m.Sound) (hFault : m.RemovalFault id e) :
    m.removeBlock id = .error e m := by
  cases hFault with
  | unknown hGone =>
      rw [removeBlock, Edit.get_bind]
      exact Edit.refuseIf_bind_of_true (by simp [BlockGraph.block?_eq_none_iff.mp hGone])
  | entryPoint hLive hEntry => exact removeBlock_of_referrer hLive (if_pos hEntry)
  | @symbol b first s hLive hEntry hSymbol hReferent hFirst =>
      have hHead : (m.symbols.referringTo id).head? = some (first, s) :=
        (m.enumerates_referringTo id).head?_eq_some_iff.mpr ⟨⟨hSymbol, hReferent⟩, hFirst⟩
      refine removeBlock_of_referrer hLive ?_
      rw [referrer?, if_neg hEntry, hHead]
      rfl
  | @edges b l hLive hEntry hSymbols hEdges hSome =>
      have hKnown := BlockGraph.containsBlock_iff.mpr ⟨b, hLive⟩
      have hUnnamed : m.referrer? id = none := by
        rw [referrer?, if_neg hEntry, (m.enumerates_referringTo id).eq_nil_iff.mpr hSymbols]
        rfl
      have hCount := BlockGraph.incidentEdgeCount_eq_length h.blocks
        (BlockGraph.block?_eq_some_iff.mp hLive).1 hEdges
      have hGraph : BlockGraph.removeBlock id m.blocks =
          .error (.blockHasEdges id l.length) m.blocks := by
        rw [BlockGraph.removeBlock, Edit.get_bind, Edit.demand_some_bind hLive, hCount]
        exact Edit.refuseIf_bind_of_true (List.length_pos_iff.mpr hSome)
      rw [removeBlock, Edit.get_bind, Edit.refuseIf_bind_of_false (by simp [hKnown]), hUnnamed]
      exact (Edit.bind_of_ok (a := ()) rfl).trans (Edit.within_of_error hGraph)

/-- In a sound module a removal succeeds exactly when the block is live and nothing names it. -/
theorem removeBlock_iff_removable (h : m.Sound) (id : BlockId) :
    (∃ b m', m.removeBlock id = .ok b m') ↔ m.Removable id := by
  constructor
  · rintro ⟨b, m', hEdit⟩
    rcases m.removable_or_fault id with hFree | ⟨e, hFault⟩
    · exact hFree
    · cases hEdit.symm.trans (removeBlock_of_fault h hFault)
  · intro hFree
    obtain ⟨b, m', -, hEdit⟩ := removeBlock_of_removable h hFree
    exact ⟨b, m', hEdit⟩

/-- In a sound module a removal fails exactly with the reason that applies, and it changes nothing
then. -/
theorem removeBlock_eq_error_iff {e : Error} (h : m.Sound) :
    m.removeBlock id = .error e m' ↔ m' = m ∧ m.RemovalFault id e := by
  constructor
  · intro hEdit
    rcases m.removable_or_fault id with hFree | ⟨e', hFault⟩
    · obtain ⟨b, m', -, hOk⟩ := removeBlock_of_removable h hFree
      cases hEdit.symm.trans hOk
    · cases hEdit.symm.trans (removeBlock_of_fault h hFault)
      exact ⟨rfl, hFault⟩
  · rintro ⟨rfl, hFault⟩
    exact removeBlock_of_fault h hFault

section Ties

variable {l : Listing} {tie : Tie} {order : List Tie}

theorem Listing.edge_mem_ties {i : EdgeId} :
    .edge i ∈ l.ties id ↔ ∃ e, (i, e) ∈ l.edges ∧ (e.source = id ∨ e.target = id) := by
  simp [ties]

theorem Listing.symbol_mem_ties {i : SymbolId} :
    .symbol i ∈ l.ties id ↔ ∃ s, (i, s) ∈ l.symbols ∧ s.referent = .block id := by
  simp [ties]

theorem Listing.entryPoint_mem_ties : .entryPoint ∈ l.ties id ↔ l.entryPoint = some id := by
  simp [ties]

/-- Taking out an edge takes out that one tie at most. It is none if the edge is elsewhere. -/
theorem Listing.ties_removeEdge (l : Listing) (id : BlockId) (i : EdgeId) :
    Listing.ties { l with edges := l.edges.filter (·.1 ≠ i) } id =
      (l.ties id).filter (· ≠ .edge i) := by
  simp [ties, List.filter_map, Function.comp_def, Bool.and_comm]

theorem Listing.ties_removeSymbol (l : Listing) (id : BlockId) (i : SymbolId) :
    Listing.ties { l with symbols := l.symbols.filter (·.1 ≠ i) } id =
      (l.ties id).filter (· ≠ .symbol i) := by
  simp [ties, List.filter_map, Function.comp_def, Bool.and_comm]

theorem Listing.ties_clearEntryPoint (l : Listing) (id : BlockId) :
    Listing.ties { l with entryPoint := none } id = (l.ties id).filter (· ≠ .entryPoint) := by
  simp [ties, List.filter_map, Function.comp_def]

/-- Each thing that names a block does so under an id of its own. -/
theorem nodup_ties (m : Module) (id : BlockId) : (m.listing.ties id).Nodup := by
  have hEdges : ((m.blocks.edgeList.filter fun x =>
      x.2.source = id || x.2.target = id).map fun x => Tie.edge x.1).Nodup :=
    (m.blocks.enumerates_incident id).nodup_map fun _ _ hSame => Tie.edge.inj hSame
  have hSymbols : ((m.symbols.referringTo id).map fun x => Tie.symbol x.1).Nodup :=
    (m.enumerates_referringTo id).nodup_map fun _ _ hSame => Tie.symbol.inj hSame
  have hEntry : ((m.entryPoint.toList.filter (· = id)).map fun _ => Tie.entryPoint).Nodup := by
    cases m.entryPoint with
    | none => exact .nil
    | some entry => by_cases hSame : entry = id <;> simp [hSame]
  refine List.nodup_append'.mpr ⟨hEdges, List.nodup_append'.mpr ⟨hSymbols, hEntry, ?_⟩, ?_⟩
  · intro tie hSymbol hOther
    obtain ⟨x, -, rfl⟩ := List.mem_map.mp hSymbol
    simp at hOther
  · intro tie hEdge hOther
    obtain ⟨x, -, rfl⟩ := List.mem_map.mp hEdge
    simp at hOther

/-- A live block whose ties are all gone can be removed. -/
theorem removable_of_ties {b : Block} (hLive : m.blocks.block? id = some b)
    (hTies : m.listing.ties id = []) : m.Removable id := by
  have hNone (tie : Tie) : tie ∉ m.listing.ties id := by
    rw [hTies]
    exact List.not_mem_nil
  exact {
    live := ⟨b, hLive⟩
    entryPoint := fun hEntry => hNone _ (Listing.entryPoint_mem_ties.mpr hEntry)
    symbols := fun i s hs hReferent => hNone _
      (Listing.symbol_mem_ties.mpr ⟨s, SymbolTable.mem_symbolList.mpr hs, hReferent⟩)
    edges := fun i e he => not_or.mp fun hEnd => hNone _
      (Listing.edge_mem_ties.mpr ⟨e, BlockGraph.mem_edgeList.mpr he, hEnd⟩) }

/-- One step: taking out something that names a block succeeds. The block stays as it is, and so
does all else that names it. -/
theorem exists_cut (h : m.Sound) (hTie : tie ∈ m.listing.ties id) :
    ∃ m', m.cut tie = .ok () m' ∧ m'.Sound ∧ m'.blocks.block? id = m.blocks.block? id ∧
      m'.listing.ties id = (m.listing.ties id).filter (· ≠ tie) := by
  cases tie with
  | edge i =>
      obtain ⟨e, he, -⟩ := Listing.edge_mem_ties.mp hTie
      have hRemove : m.removeEdge i = .ok e _ := onBlocks_eq_ok.mpr
        ⟨_, BlockGraph.removeEdge_eq_ok.mpr ⟨BlockGraph.mem_edgeList.mp he, rfl⟩, rfl⟩
      refine ⟨_, Edit.map_of_ok _ hRemove, sound_run h (.removeEdge i) hRemove, rfl, ?_⟩
      rw [listing_removeEdge hRemove]
      exact m.listing.ties_removeEdge id i
  | symbol i =>
      obtain ⟨s, hs, -⟩ := Listing.symbol_mem_ties.mp hTie
      have hRemove : m.removeSymbol i = .ok s _ := onSymbols_eq_ok.mpr
        ⟨_, SymbolTable.removeSymbol_eq_ok.mpr ⟨SymbolTable.mem_symbolList.mp hs, rfl⟩, rfl⟩
      refine ⟨_, Edit.map_of_ok _ hRemove, sound_run h (.removeSymbol i) hRemove, rfl, ?_⟩
      rw [listing_removeSymbol hRemove]
      exact m.listing.ties_removeSymbol id i
  | entryPoint =>
      have hClear : m.setEntryPoint none = .ok () _ := setEntryPoint_eq_ok.mpr ⟨nofun, rfl⟩
      exact ⟨_, hClear, sound_run h (.setEntryPoint none) hClear, rfl,
        m.listing.ties_clearEntryPoint id⟩

/-- The whole run: in whatever order everything that names a block is taken out, none of the steps
fails and the block is left without a tie. -/
theorem exists_cut_all (h : m.Sound) (hOrder : order.Perm (m.listing.ties id)) :
    ∃ m', order.forM cut m = .ok () m' ∧ m'.Sound ∧
      m'.blocks.block? id = m.blocks.block? id ∧ m'.listing.ties id = [] := by
  induction order generalizing m with
  | nil => exact ⟨m, rfl, h, rfl, List.nil_perm.mp hOrder⟩
  | cons tie rest ih =>
      obtain ⟨n, hCut, hSound, hBlock, hTies⟩ :=
        exists_cut h (hOrder.subset (List.mem_cons_self ..))
      -- A tie is in the order once, so what was cut is not cut again, which would fail.
      have hRest : rest.Perm (n.listing.ties id) := by
        have hErase := hOrder.erase tie
        rw [List.erase_cons_head, (m.nodup_ties id).erase_eq_filter] at hErase
        simpa [hTies, bne, beq_eq_decide] using hErase
      obtain ⟨m', hAll, hSound', hBlock', hNone⟩ := ih hSound hRest
      exact ⟨m', (Edit.bind_of_ok hCut).trans hAll, hSound', hBlock'.trans hBlock, hNone⟩

end Ties

/-- Exactly the live blocks that nothing names can be removed. Otherwise the module stays as it is
and the first of the reasons is told; the number of edges in it is that of the stored edges at the
block, and no more loops are taken off than were counted twice. When all that names a live block
is taken out, in any order, every step succeeds and so does the removal. -/
theorem removeBlock_exact (h : m.Reachable) (id : BlockId) :
    ((∃ b m', m.removeBlock id = .ok b m') ↔ m.Removable id) ∧
    (∀ b m', m.removeBlock id = .ok b m' → m.BlockRemoved id b m') ∧
    (∀ e m', m.removeBlock id = .error e m' ↔ m' = m ∧ m.RemovalFault id e) ∧
    m.blocks.incidentEdgeCount id + (m.blocks.loopsAt id).length =
      (m.blocks.outgoing.edgesAt id.index).length + (m.blocks.incoming.edgesAt id.index).length ∧
    ∀ (b : Block) (order : List Tie), m.blocks.block? id = some b →
      order.Perm (m.listing.ties id) →
      ∃ m' m'', order.forM cut m = .ok () m' ∧ m'.removeBlock id = .ok b m'' := by
  refine ⟨removeBlock_iff_removable h.sound id, fun b m' hEdit => blockRemoved h.sound hEdit,
    fun e m' => removeBlock_eq_error_iff h.sound, m.blocks.incidentEdgeCount_add_loops id,
    fun b order hLive hOrder => ?_⟩
  obtain ⟨m', hCut, hSound, hBlock, hTies⟩ := exists_cut_all h.sound hOrder
  have hLive' : m'.blocks.block? id = some b := hBlock.trans hLive
  obtain ⟨b', m'', hFound, hRemove⟩ :=
    removeBlock_of_removable hSound (removable_of_ties hLive' hTies)
  cases hFound.symm.trans hLive'
  exact ⟨m', m'', hCut, hRemove⟩

/-- The block is the entry point, two symbols name it, and two loops and two parallel edges from
another block are at it. Without the entry point and the symbols four edges are counted, although
the lists of the block have six entries. -/
theorem removeBlock_exact_crowded :
    let b : BlockId := ⟨default, 0⟩
    let other : BlockId := ⟨default, 1⟩
    let m := (Operation.addCodeBlock 0x2000 16).run.after (recursion default default)
    let m := (Operation.addEdge b b { kind := .branch }).run.after m
    let m := (Operation.addEdge other b { kind := .call }).run.after m
    let m := (Operation.addEdge other b { kind := .call }).run.after m
    let m := (Operation.addSymbolAtEnd "end" b).run.after m
    let bare := (Operation.setEntryPoint none).run.after m
    let bare := (Operation.removeSymbol ⟨0⟩).run.after bare
    let bare := (Operation.removeSymbol ⟨1⟩).run.after bare
    m.Reachable ∧ bare.Reachable ∧
      m.removeBlock b = .error (.blockReferenced b .entryPoint) m ∧
      bare.removeBlock b = .error (.blockHasEdges b 4) bare ∧
      (bare.blocks.outgoing.edgesAt b.index).length +
        (bare.blocks.incoming.edgesAt b.index).length = 4 + 2 ∧
      ∃ x m' m'', m.blocks.block? b = some x ∧ List.forM [.symbol ⟨1⟩, .edge ⟨3⟩, .entryPoint,
        .edge ⟨0⟩, .edge ⟨2⟩, .symbol ⟨0⟩, .edge ⟨1⟩] cut m = .ok () m' ∧
        m'.removeBlock b = .ok x m'' := by
  intro b other m₁ m₂ m₃ m₄ m bare₁ bare₂ bare
  have hReachable : m.Reachable := by
    repeat apply Reachable.operation
    exact reachable_recursion default default
  have hBare : bare.Reachable :=
    ((hReachable.operation (.setEntryPoint none)).operation (.removeSymbol ⟨0⟩)).operation
      (.removeSymbol ⟨1⟩)
  have hTies : m.listing.ties b = [.edge ⟨0⟩, .edge ⟨1⟩, .edge ⟨2⟩, .edge ⟨3⟩, .symbol ⟨0⟩,
    .symbol ⟨1⟩, .entryPoint] := by decide +kernel
  obtain ⟨-, -, hFault, -, hFree⟩ := removeBlock_exact hReachable b
  obtain ⟨-, -, hBareFault, hSum, -⟩ := removeBlock_exact hBare b
  have hLive : m.blocks.block? b = some (.code (some 0x1000) 16 0) := by decide +kernel
  obtain ⟨m', m'', hCut, hRemove⟩ := hFree _ [.symbol ⟨1⟩, .edge ⟨3⟩, .entryPoint, .edge ⟨0⟩,
    .edge ⟨2⟩, .symbol ⟨0⟩, .edge ⟨1⟩] hLive (by rw [hTies]; decide)
  have hIsEntry : m.entryPoint = some b := by decide +kernel
  have hEntry : m.removeBlock b = .error (.blockReferenced b .entryPoint) m :=
    (hFault _ _).mpr ⟨rfl, .entryPoint hLive hIsEntry⟩
  have hBareLive : bare.blocks.block? b = some (.code (some 0x1000) 16 0) := by decide +kernel
  have hNoEntry : bare.entryPoint ≠ some b := by decide +kernel
  have hNoSymbols : ∀ i s, bare.symbols.symbol? i = some s → s.referent ≠ .block b :=
    (bare.enumerates_referringTo b).eq_nil_iff.mp (by decide +kernel)
  have hFour : (bare.blocks.edgeList.filter fun x =>
      x.2.source = b || x.2.target = b).length = 4 := by decide +kernel
  have hEdges : bare.removeBlock b = .error (.blockHasEdges b 4) bare :=
    (hBareFault _ _).mpr ⟨rfl, hFour ▸ .edges hBareLive hNoEntry hNoSymbols
      (bare.blocks.enumerates_incident b) (List.length_pos_iff.mp (hFour ▸ by decide))⟩
  have hCount : bare.blocks.incidentEdgeCount b = 4 := by decide +kernel
  have hLoops : (bare.blocks.loopsAt b).length = 2 := by decide +kernel
  rw [hCount, hLoops] at hSum
  exact ⟨hReachable, hBare, hEntry, hEdges, hSum.symm, _, m', m'', hLive, hCut, hRemove⟩

end Module

end Disassembly
