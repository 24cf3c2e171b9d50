import Disassembly.Module.Query
import Disassembly.Proofs.ArchiveRoundTrip
import Disassembly.Proofs.Reachable

/-! Modules that answer every question alike. Two modules with the same content whose derived
lists agree with it cannot be told apart, although the lists were made on different ways: by
one change after the other, or all at once from the store. -/
namespace Disassembly

/-- The modules give the same answers to all questions, in the same order, errors included. -/
structure Module.SameAnswers (m m' : Module) : Prop where
  blocks : m.blocks.blockList = m'.blocks.blockList
  edges : m.blocks.edgeList = m'.blocks.edgeList
  symbols : m.symbols.symbolList = m'.symbols.symbolList
  sections : m.sections.sectionList = m'.sections.sectionList
  findBlock : ∀ id, m.blocks.block? id = m'.blocks.block? id
  findEdge : ∀ id, m.blocks.edge? id = m'.blocks.edge? id
  findSymbol : ∀ id, m.symbols.symbol? id = m'.symbols.symbol? id
  findSection : ∀ id, m.sections.section? id = m'.sections.section? id
  outgoingEdges : ∀ id kind, m.blocks.outgoingEdges id kind = m'.blocks.outgoingEdges id kind
  incomingEdges : ∀ id kind, m.blocks.incomingEdges id kind = m'.blocks.incomingEdges id kind
  incidentEdgeCount : ∀ id, m.blocks.incidentEdgeCount id = m'.blocks.incidentEdgeCount id
  blocksAt : ∀ a, m.blocks.blocksAt a = m'.blocks.blocksAt a
  findNamed : ∀ name, m.symbols.find name = m'.symbols.find name
  referringTo : ∀ id, m.symbols.referringTo id = m'.symbols.referringTo id
  referrer? : ∀ id, m.referrer? id = m'.referrer? id
  sectionsOn : ∀ a, m.sections.sectionsOn a = m'.sections.sectionsOn a
  sectionNamesAt : ∀ a, m.sections.sectionNamesAt a = m'.sections.sectionNamesAt a
  sectionsNamed : ∀ name, m.sections.sectionsNamed name = m'.sections.sectionsNamed name
  referentKind : ∀ id, m.referentKind id = m'.referentKind id
  isProxyReferent : ∀ id, m.isProxyReferent id = m'.isProxyReferent id
  callEdgesFrom : ∀ id, m.callEdgesFrom id = m'.callEdgesFrom id
  callTargetsFrom : ∀ id, m.callTargetsFrom id = m'.callTargetsFrom id
  sectionsForEdgeTarget : ∀ id, m.sectionsForEdgeTarget id = m'.sectionsForEdgeTarget id
  stubSectionsForEdge : ∀ id, m.stubSectionsForEdge id = m'.stubSectionsForEdge id
  findSingleSymbol : ∀ name, m.findSingleSymbol name = m'.findSingleSymbol name
  symbolResolvesToCode : ∀ name, m.symbolResolvesToCode name = m'.symbolResolvesToCode name

/-- Graphs with the same content are equal but for their lists of edges. -/
theorem BlockGraph.exists_of_stored_eq {g g' : BlockGraph} (h : g.stored = g'.stored) :
    ∃ outgoing incoming, g' = { g with outgoing, incoming } := by
  cases g
  cases g'
  cases h
  exact ⟨_, _, rfl⟩

/-- Tables of symbols with the same content are equal but for their lists of names. -/
theorem SymbolTable.exists_of_stored_eq {t t' : SymbolTable} (h : t.stored = t'.stored) :
    ∃ byName, t' = { t with byName } := by
  cases t
  cases t'
  cases h
  exact ⟨_, rfl⟩

/-- Modules with the same content are equal but for their derived lists. -/
theorem Module.exists_of_stored_eq {m m' : Module} (h : m.stored = m'.stored) :
    ∃ outgoing incoming byName,
      m' = { m with
        blocks := { m.blocks with outgoing, incoming }
        symbols := { m.symbols with byName } } := by
  cases m
  cases m'
  simp only [stored, Module.mk.injEq] at h
  obtain ⟨rfl, rfl, rfl, rfl, rfl, rfl, rfl, rfl, rfl, rfl, hBlocks, hSymbols, rfl⟩ := h
  obtain ⟨outgoing, incoming, rfl⟩ := BlockGraph.exists_of_stored_eq hBlocks
  obtain ⟨byName, rfl⟩ := SymbolTable.exists_of_stored_eq hSymbols
  exact ⟨outgoing, incoming, byName, rfl⟩

/-- Whether all symbols of a name are code is settled by what each of them refers to. -/
theorem Module.every_congr {m m' : Module} (h : ∀ id, m.referentKind id = m'.referentKind id)
    (hits : List (SymbolId × Symbol)) :
    symbolResolvesToCode.every m hits = symbolResolvesToCode.every m' hits := by
  induction hits with
  | nil => rfl
  | cons hit rest ih => simp only [symbolResolvesToCode.every, h, ih]

/-- Counters settle no answer, and of two collections of lists that agree with one content both
give the same answers. -/
theorem Module.sameAnswers_of_linked {m : Module}
    {nextBlock nextEdge nextSymbol nextSection : UInt32} {outgoing incoming : Adjacency}
    {byName : NameIndex} (h : m.Linked)
    (h' : Linked { m with
      blocks := { m.blocks with nextBlock, nextEdge, outgoing, incoming }
      symbols := { m.symbols with nextSymbol, byName }
      sections := { m.sections with nextSection } }) :
    m.SameAnswers { m with
      blocks := { m.blocks with nextBlock, nextEdge, outgoing, incoming }
      symbols := { m.symbols with nextSymbol, byName }
      sections := { m.sections with nextSection } } := by
  have hOut : ∀ i, m.blocks.outgoing.edgesAt i = outgoing.edgesAt i :=
    fun i => (h.blocks.outgoing i).trans (h'.blocks.outgoing i).symm
  have hIn : ∀ i, m.blocks.incoming.edgesAt i = incoming.edgesAt i :=
    fun i => (h.blocks.incoming i).trans (h'.blocks.incoming i).symm
  have hNames : ∀ name, m.symbols.byName.under name = byName.under name :=
    fun name => (h.symbols name).trans (h'.symbols name).symm
  have hOutgoing : ∀ id kind, m.blocks.outgoingEdges id kind =
      BlockGraph.outgoingEdges
        { m.blocks with nextBlock, nextEdge, outgoing, incoming } id kind := by
    intro id kind
    rw [BlockGraph.outgoingEdges, hOut]
    rfl
  have hFind : ∀ name, m.symbols.find name =
      SymbolTable.find { m.symbols with nextSymbol, byName } name := by
    intro name
    rw [SymbolTable.find, hNames]
    rfl
  have hKinds : ∀ id, m.referentKind id = referentKind { m with
      blocks := { m.blocks with nextBlock, nextEdge, outgoing, incoming }
      symbols := { m.symbols with nextSymbol, byName }
      sections := { m.sections with nextSection } } id := fun _ => rfl
  -- All other questions look at the stores and at no list.
  exact {
    blocks := rfl
    edges := rfl
    symbols := rfl
    sections := rfl
    findBlock := fun _ => rfl
    findEdge := fun _ => rfl
    findSymbol := fun _ => rfl
    findSection := fun _ => rfl
    outgoingEdges := hOutgoing
    incomingEdges := fun id kind => by
      rw [BlockGraph.incomingEdges, hIn]
      rfl
    incidentEdgeCount := fun id => by
      rw [BlockGraph.incidentEdgeCount, hOut, hIn]
      rfl
    blocksAt := fun _ => rfl
    findNamed := hFind
    referringTo := fun _ => rfl
    referrer? := fun _ => rfl
    sectionsOn := fun _ => rfl
    sectionNamesAt := fun _ => rfl
    sectionsNamed := fun _ => rfl
    referentKind := fun _ => rfl
    isProxyReferent := fun _ => rfl
    callEdgesFrom := fun id => hOutgoing id _
    callTargetsFrom := fun id => by
      rw [callTargetsFrom, callEdgesFrom, hOutgoing]
      rfl
    sectionsForEdgeTarget := fun _ => rfl
    stubSectionsForEdge := fun _ => rfl
    findSingleSymbol := fun name => by
      rw [findSingleSymbol, hFind]
      rfl
    symbolResolvesToCode := fun name => by
      rw [symbolResolvesToCode, symbolResolvesToCode, hFind]
      simp only [every_congr hKinds] }

/-- The content and the agreement of the lists with it settle every answer. -/
theorem Module.sameAnswers_of_stored_eq {m m' : Module} (hContent : m.stored = m'.stored)
    (h : m.Linked) (h' : m'.Linked) : m.SameAnswers m' := by
  obtain ⟨outgoing, incoming, byName, rfl⟩ := exists_of_stored_eq hContent
  exact sameAnswers_of_linked h h'

namespace Program

/-- Every module of a program answers after storing and loading as it did before. -/
theorem sameAnswers_relink_stored {p : Program} (h : p.Sound) :
    List.Forall₂ Module.SameAnswers p.modules p.stored.relink.modules := by
  change List.Forall₂ _ p.modules ((p.modules.map Module.stored).map Module.relink)
  rw [List.map_map]
  refine List.forall₂_map_right_iff.mpr (List.forall₂_same.mpr fun m hm => ?_)
  refine Module.sameAnswers_of_stored_eq ?_ (h.modules m hm).linked (Module.linked_relink _)
  rw [Function.comp_apply, Module.stored_relink]
  rfl

end Program

/-- Archives keep a program that was made with the changes of programs and modules, and all that
can be asked of its modules. The lists that loading rebuilds from the stored content answer
like those that were kept up to date by one change after the other. -/
theorem archive_round_trip {p : Program} (h : p.Reachable)
    (hSize : (Archive.payload p).length ≤ Archive.payloadLimit) :
    ∃ back, (∀ options, Archive.decode options (Archive.encode p) = .ok back) ∧
      back.sameContent p = true ∧ List.Forall₂ Module.SameAnswers p.modules back.modules := by
  refine ⟨p.stored.relink, fun options => ?_, p.sameContent_relink_stored,
    Program.sameAnswers_relink_stored h.sound⟩
  rw [Archive.decode_encode options hSize]
  exact Archive.accept_stored h.sound.wellFormed

theorem archive_round_trip_doubledRecursion :
    Program.doubledRecursion.Reachable ∧
      (Archive.payload Program.doubledRecursion).length ≤ Archive.payloadLimit ∧
      ∃ back, (∀ options,
          Archive.decode options (Archive.encode Program.doubledRecursion) = .ok back) ∧
        back.sameContent Program.doubledRecursion = true ∧
        List.Forall₂ Module.SameAnswers Program.doubledRecursion.modules back.modules := by
  have hSize : (Archive.payload Program.doubledRecursion).length ≤ Archive.payloadLimit := by
    decide +kernel
  exact ⟨Program.reachable_doubledRecursion, hSize,
    archive_round_trip Program.reachable_doubledRecursion hSize⟩

end Disassembly
