import Disassembly.Proofs.ModuleEdits

/-! Every change of a module keeps its rules and its derived lists. A change of the graph must
keep every block that a symbol or the entry point refers to, and only the removal of a block has
to look for that. -/
namespace Disassembly.Module

variable {m m' : Module} {α : Type} {a : α}

/-- The rules of a module, and derived lists that agree with its content. -/
structure Sound (m : Module) : Prop where
  wellFormed : m.WellFormed
  linked : m.Linked

theorem Sound.blocks (h : m.Sound) : m.blocks.Sound := ⟨h.wellFormed.blocks, h.linked.blocks⟩

theorem Sound.symbols (h : m.Sound) : m.symbols.Sound m.blocks :=
  ⟨h.wellFormed.symbols, h.linked.symbols⟩

/-- A new module is empty apart from its description, so there is nothing to keep in order. -/
theorem sound_build (d : Description) (id : ModuleId) (tag : GraphTag) :
    (build d id tag).Sound where
  wellFormed := {
    blocks := (BlockGraph.sound_empty tag).wellFormed
    symbols := (SymbolTable.sound_empty _).wellFormed
    sections := AddressSpace.wellFormed_empty
    entryPoint := fun id h => by cases h }
  linked := ⟨BlockGraph.linked_empty tag, SymbolTable.linked_empty⟩

/-- A module whose rules hold is sound as soon as its lists are rebuilt. This is how loading makes
it so. -/
theorem sound_relink (h : m.WellFormed) : m.relink.Sound where
  wellFormed := by
    rw [← wellFormed_stored_iff, stored_relink, wellFormed_stored_iff]
    exact h
  linked := linked_relink m

/-- The graph of a module may become any graph in which the blocks that something refers to
are live and of the kind they had. -/
theorem Sound.withBlocks {g : BlockGraph} (h : m.Sound) (hGraph : g.Sound)
    (hKeeps : ∀ id b, m.Refers id → m.blocks.block? id = some b →
      ∃ b', g.block? id = some b' ∧ b'.kind = b.kind) : Sound { m with blocks := g } where
  wellFormed := {
    blocks := hGraph.wellFormed
    symbols := h.wellFormed.symbols.of_graph fun i s id b hs hReferent hb => by
      obtain ⟨b', hb', -⟩ := hKeeps id b (.inr ⟨i, s, hs, hReferent⟩) hb
      exact ⟨b', hb'⟩
    sections := h.wellFormed.sections
    entryPoint := fun id hEntry => by
      obtain ⟨b, hb, hCode⟩ := h.wellFormed.entryPoint id hEntry
      obtain ⟨b', hb', hKind⟩ := hKeeps id b (.inl hEntry) hb
      exact ⟨b', hb', by rwa [Block.isCode, hKind]⟩ }
  linked := ⟨hGraph.linked, h.linked.symbols⟩

/-- The symbols of a module may become any for which the graph has the blocks that they refer to. -/
theorem Sound.withSymbols {t : SymbolTable} (h : m.Sound) (hSymbols : t.Sound m.blocks) :
    Sound { m with symbols := t } where
  wellFormed := { h.wellFormed with symbols := hSymbols.wellFormed }
  linked := ⟨h.linked.blocks, hSymbols.linked⟩

theorem Sound.withSections {s : AddressSpace} (h : m.Sound) (hSections : s.WellFormed) :
    Sound { m with sections := s } where
  wellFormed := { h.wellFormed with sections := hSections }
  linked := ⟨h.linked.blocks, h.linked.symbols⟩

/-- The entry point may become any live block with code, or none. -/
theorem Sound.withEntryPoint {entry : Option BlockId} (h : m.Sound)
    (hEntry : ∀ id, entry = some id → ∃ b, m.blocks.block? id = some b ∧ b.isCode = true) :
    Sound { m with entryPoint := entry } where
  wellFormed := { h.wellFormed with entryPoint := hEntry }
  linked := ⟨h.linked.blocks, h.linked.symbols⟩

/-- Free-form tables are under no rule. -/
theorem Sound.withAux (h : m.Sound) (aux : AuxTables) : Sound { m with auxData := aux } where
  wellFormed := { h.wellFormed with }
  linked := ⟨h.linked.blocks, h.linked.symbols⟩

/-- What is kept of all blocks is kept of those that something refers to. -/
theorem Sound.onBlocks {edit : Edit BlockGraph α} (h : m.Sound)
    (hEdit : onBlocks edit m = .ok a m')
    (hSound : ∀ g, edit m.blocks = .ok a g → g.Sound)
    (hKeeps : ∀ g, edit m.blocks = .ok a g → m.blocks.Keeps g) : m'.Sound := by
  obtain ⟨g, hg, rfl⟩ := onBlocks_eq_ok.mp hEdit
  exact h.withBlocks (hSound g hg) fun id b _ hb => hKeeps g hg id b hb

/-- A block that is removed leaves a sound module. A symbol or an entry point that is still there
refers to another block, since a referrer of this one would have been in the way. -/
theorem sound_removeBlock {id : BlockId} {b : Block} (h : m.Sound)
    (hEdit : m.removeBlock id = .ok b m') : m'.Sound := by
  obtain ⟨hFree, g, hg, rfl⟩ := removeBlock_eq_ok.mp hEdit
  refine h.withBlocks (BlockGraph.sound_removeBlock h.blocks hg) fun other b' hRefers hb' => ?_
  obtain ⟨hb, -⟩ := BlockGraph.removeBlock_eq_ok.mp hg
  have hOther : other.index ≠ id.index := by
    intro hSame
    have hTags : other.graph = id.graph :=
      (BlockGraph.block?_eq_some_iff.mp hb').1.trans (BlockGraph.block?_eq_some_iff.mp hb).1.symm
    have hIds : other = id := (BlockId.index_eq_iff hTags).mp hSame
    exact hFree (hIds ▸ hRefers)
  exact ⟨b', BlockGraph.block?_removeBlock hg hOther hb', rfl⟩

/-- One step: every change that succeeds keeps the rules and the derived lists. -/
theorem sound_run (h : m.Sound) (op : Operation α) (hEdit : op.run m = .ok a m') : m'.Sound := by
  cases op with
  | addBlock | addCodeBlock | addDataBlock | addProxyBlock =>
      exact h.onBlocks hEdit (fun g hg => BlockGraph.sound_addBlock h.blocks hg)
        fun g hg => BlockGraph.keeps_addBlock h.wellFormed.blocks hg
  | addEdge =>
      exact h.onBlocks hEdit (fun g hg => BlockGraph.sound_addEdge h.blocks hg)
        fun g hg => BlockGraph.keeps_addEdge hg
  | removeEdge =>
      exact h.onBlocks hEdit (fun g hg => BlockGraph.sound_removeEdge h.blocks hg)
        fun g hg => BlockGraph.keeps_removeEdge hg
  | setBlockAddress =>
      exact h.onBlocks hEdit (fun g hg => BlockGraph.sound_setBlockAddress h.blocks hg)
        fun g hg => BlockGraph.keeps_setBlockAddress hg
  | removeBlock => exact sound_removeBlock h hEdit
  | setEntryPoint =>
      obtain ⟨hEntry, rfl⟩ := setEntryPoint_eq_ok.mp hEdit
      exact h.withEntryPoint hEntry
  | addSymbol | addSymbolAtEnd =>
      obtain ⟨t, ht, rfl⟩ := bindSymbol_eq_ok.mp hEdit
      exact h.withSymbols (SymbolTable.sound_bind h.symbols ht)
  | removeSymbol =>
      obtain ⟨t, ht, rfl⟩ := onSymbols_eq_ok.mp hEdit
      exact h.withSymbols (SymbolTable.sound_removeSymbol h.symbols ht)
  | addSection =>
      obtain ⟨s, hs, rfl⟩ := onSections_eq_ok.mp hEdit
      exact h.withSections (AddressSpace.wellFormed_addSection h.wellFormed.sections hs)
  | removeSection id =>
      change onSections (AddressSpace.removeSection id) m = .ok a m' at hEdit
      obtain ⟨s, hs, rfl⟩ := onSections_eq_ok.mp hEdit
      exact h.withSections (AddressSpace.wellFormed_removeSection h.wellFormed.sections hs)
  | setAux =>
      obtain ⟨-, rfl⟩ := setAux_eq_ok.mp hEdit
      exact h.withAux _
  | removeAux =>
      obtain ⟨-, rfl⟩ := removeAux_eq_ok.mp hEdit
      exact h.withAux _

/-- One step, whether or not it succeeds. -/
theorem sound_after (h : m.Sound) (op : Operation α) : (op.run.after m).Sound :=
  (atomic_run op).keeps h fun _ _ hEdit => sound_run h op hEdit

/-- A module that is moved to another identity is sound under its new tag: everything that carries
the tag is moved along. -/
theorem sound_withIdentity (h : m.Sound) (id : ModuleId) (tag : GraphTag) :
    (m.withIdentity id tag).Sound where
  wellFormed := {
    blocks := (BlockGraph.sound_retag h.blocks).wellFormed
    symbols := (SymbolTable.sound_retag h.symbols).wellFormed
    sections := h.wellFormed.sections
    entryPoint := fun moved hEntry => by
      obtain ⟨entry, hOld, rfl⟩ := Option.map_eq_some_iff.mp hEntry
      obtain ⟨b, hb, hCode⟩ := h.wellFormed.entryPoint entry hOld
      have hTag : entry.graph = m.graphTag := (BlockGraph.block?_eq_some_iff.mp hb).1
      rw [if_pos hTag]
      exact ⟨b, BlockGraph.block?_retag hb, hCode⟩ }
  linked :=
    ⟨(BlockGraph.sound_retag h.blocks).linked, (SymbolTable.sound_retag h.symbols).linked⟩

end Disassembly.Module
