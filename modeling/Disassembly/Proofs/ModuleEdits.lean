import Disassembly.Proofs.SymbolEdits

/-! The changes that a module offers, as one type. Each is told by what it does when it succeeds,
each is all or nothing, and none touches the identity of the module. -/
namespace Disassembly.Module

/-- A change that a module offers, with its arguments. The answer has the type `α`. -/
inductive Operation : Type → Type where
  | addBlock (kind : BlockKind) (attributes : BlockAttributes) : Operation BlockId
  | addCodeBlock (address size : UInt64) : Operation BlockId
  | addDataBlock (address size : UInt64) : Operation BlockId
  | addProxyBlock : Operation BlockId
  | addEdge (source target : BlockId) (label : EdgeLabel) : Operation EdgeId
  | removeEdge (id : EdgeId) : Operation Edge
  | setBlockAddress (id : BlockId) (address : Option UInt64) : Operation Unit
  | removeBlock (id : BlockId) : Operation Block
  | setEntryPoint (entry : Option BlockId) : Operation Unit
  | addSymbol (name : String) (referent : Referent) : Operation SymbolId
  | addSymbolAtEnd (name : String) (block : BlockId) : Operation SymbolId
  | removeSymbol (id : SymbolId) : Operation Symbol
  | addSection (x : Section) : Operation SectionId
  | removeSection (id : SectionId) : Operation (Option Section)
  | setAux (name : String) (table : AuxData) : Operation (Option AuxData)
  | removeAux (name : String) : Operation (Option AuxData)

/-- The change itself. -/
def Operation.run : {α : Type} → Operation α → Edit Module α
  | _, .addBlock kind attributes => Module.addBlock kind attributes
  | _, .addCodeBlock address size => Module.addCodeBlock address size
  | _, .addDataBlock address size => Module.addDataBlock address size
  | _, .addProxyBlock => Module.addProxyBlock
  | _, .addEdge source target label => Module.addEdge source target label
  | _, .removeEdge id => Module.removeEdge id
  | _, .setBlockAddress id address => Module.setBlockAddress id address
  | _, .removeBlock id => Module.removeBlock id
  | _, .setEntryPoint entry => Module.setEntryPoint entry
  | _, .addSymbol name referent => Module.addSymbol name referent
  | _, .addSymbolAtEnd name block => Module.addSymbolAtEnd name block
  | _, .removeSymbol id => Module.removeSymbol id
  | _, .addSection x => Module.addSection x
  | _, .removeSection id => Module.removeSection id
  | _, .setAux name table => Module.setAux name table
  | _, .removeAux name => Module.removeAux name

variable {m m' : Module} {α : Type} {a : α}

/-- A change of the graph of a module succeeds when it does so in the graph, and the rest of the
module stays. -/
theorem onBlocks_eq_ok {edit : Edit BlockGraph α} :
    onBlocks edit m = .ok a m' ↔
      ∃ g, edit m.blocks = .ok a g ∧ m' = { m with blocks := g } :=
  Edit.within_eq_ok

/-- The same for its symbols. -/
theorem onSymbols_eq_ok {edit : Edit SymbolTable α} :
    onSymbols edit m = .ok a m' ↔
      ∃ t, edit m.symbols = .ok a t ∧ m' = { m with symbols := t } :=
  Edit.within_eq_ok

/-- The same for its sections. -/
theorem onSections_eq_ok {edit : Edit AddressSpace α} :
    onSections edit m = .ok a m' ↔
      ∃ s, edit m.sections = .ok a s ∧ m' = { m with sections := s } :=
  Edit.within_eq_ok

/-- A change of a part is all or nothing if it is so in the part. -/
theorem atomic_onBlocks {edit : Edit BlockGraph α} (h : Edit.Atomic edit) :
    Edit.Atomic (onBlocks edit) := h.within fun _ => rfl

theorem atomic_onSymbols {edit : Edit SymbolTable α} (h : Edit.Atomic edit) :
    Edit.Atomic (onSymbols edit) := h.within fun _ => rfl

theorem atomic_onSections {edit : Edit AddressSpace α} (h : Edit.Atomic edit) :
    Edit.Atomic (onSections edit) := h.within fun _ => rfl

/-- Something other than an edge refers to the block. -/
def Refers (m : Module) (id : BlockId) : Prop :=
  m.entryPoint = some id ∨ ∃ i s, m.symbols.symbols.get? i = some s ∧ s.referent = .block id

/-- There is nothing to name in the refusal just when nothing but edges refers to the block. -/
theorem referrer?_eq_none_iff {id : BlockId} : m.referrer? id = none ↔ ¬m.Refers id := by
  unfold referrer? Refers
  by_cases hEntry : m.entryPoint = some id
  · simp [hEntry]
  · rw [if_neg hEntry, Option.map_eq_none_iff, List.head?_eq_none_iff]
    simp only [SymbolTable.referringTo, SymbolTable.symbolList, List.filter_eq_nil_iff,
      List.mem_map, hEntry, false_or]
    constructor
    · rintro hNone ⟨i, s, hs, hReferent⟩
      have hEntryOf := Table.get?_eq_some_iff_mem.mp hs
      exact hNone (⟨i⟩, s) ⟨(i, s), hEntryOf, rfl⟩ (by simpa using hReferent)
    · rintro hNone _ ⟨⟨i, s⟩, hm, rfl⟩ hReferent
      exact hNone ⟨i, s, Table.get?_eq_some_iff_mem.mpr hm, by simpa using hReferent⟩

/-- A block is removed from a module when nothing refers to it and the graph lets it go. That it is
live is checked first, but the graph checks it too. -/
theorem removeBlock_eq_ok {id : BlockId} {b : Block} :
    m.removeBlock id = .ok b m' ↔ ¬m.Refers id ∧
      ∃ g, BlockGraph.removeBlock id m.blocks = .ok b g ∧ m' = { m with blocks := g } := by
  simp only [removeBlock, Edit.bind_eq_ok, Edit.get_eq_ok, Edit.refuseIf_eq_ok,
    Edit.refuse_eq_ok, onBlocks_eq_ok, Option.map_eq_none_iff, referrer?_eq_none_iff]
  constructor
  · rintro ⟨_, _, ⟨rfl, rfl⟩, ⟨⟩, _, ⟨-, rfl⟩, ⟨⟩, _, ⟨hFree, rfl⟩, g, hg, rfl⟩
    exact ⟨hFree, g, hg, rfl⟩
  · rintro ⟨hFree, g, hg, rfl⟩
    obtain ⟨hb, -⟩ := BlockGraph.removeBlock_eq_ok.mp hg
    have hLive := BlockGraph.containsBlock_iff.mpr ⟨b, hb⟩
    exact ⟨m, m, ⟨rfl, rfl⟩, ⟨⟩, m, ⟨by simp [hLive], rfl⟩, ⟨⟩, m, ⟨hFree, rfl⟩, g, hg, rfl⟩

theorem atomic_removeBlock (id : BlockId) : Edit.Atomic (Module.removeBlock id) := by
  apply Edit.quiet_get.bind
  intro m
  apply (Edit.quiet_refuseIf _ _).bind
  intro _
  apply (Edit.quiet_refuse _).bind
  intro _
  exact atomic_onBlocks (BlockGraph.atomic_removeBlock id)

/-- An entry point is at fault unless it is a live block with code. -/
theorem entryFault?_eq_none_iff {id : BlockId} :
    m.entryFault? id = none ↔ ∃ b, m.blocks.block? id = some b ∧ b.isCode = true := by
  unfold entryFault?
  cases hBlock : m.blocks.block? id with
  | none => simp
  | some b => simp

/-- An entry point is set when it is a live block with code, or when there is to be none. -/
theorem setEntryPoint_eq_ok {entry : Option BlockId} {u : Unit} :
    m.setEntryPoint entry = .ok u m' ↔
      (∀ id, entry = some id → ∃ b, m.blocks.block? id = some b ∧ b.isCode = true) ∧
        m' = { m with entryPoint := entry } := by
  simp only [setEntryPoint, Edit.bind_eq_ok, Edit.get_eq_ok, Edit.refuse_eq_ok, Edit.set_eq_ok,
    Option.bind_eq_none_iff, entryFault?_eq_none_iff]
  constructor
  · rintro ⟨_, _, ⟨rfl, rfl⟩, ⟨⟩, _, ⟨hEntry, rfl⟩, rfl⟩
    exact ⟨hEntry, rfl⟩
  · rintro ⟨hEntry, rfl⟩
    exact ⟨m, m, ⟨rfl, rfl⟩, ⟨⟩, m, ⟨hEntry, rfl⟩, rfl⟩

theorem atomic_setEntryPoint (entry : Option BlockId) :
    Edit.Atomic (Module.setEntryPoint entry) := by
  apply Edit.quiet_get.bind
  intro m
  apply (Edit.quiet_refuse _).bind
  intro _
  exact Edit.atomic_set_unit _

/-- Both ways of adding a symbol bind it to blocks of the module's own graph. -/
theorem bindSymbol_eq_ok {s : Symbol} {id : SymbolId} :
    (do let m ← get; onSymbols (SymbolTable.bind m.blocks s) : Edit Module SymbolId) m
      = .ok id m' ↔ ∃ t, SymbolTable.bind m.blocks s m.symbols = .ok id t ∧
        m' = { m with symbols := t } := by
  simp only [Edit.bind_eq_ok, Edit.get_eq_ok, onSymbols_eq_ok]
  constructor
  · rintro ⟨_, _, ⟨rfl, rfl⟩, t, ht, rfl⟩
    exact ⟨t, ht, rfl⟩
  · rintro ⟨t, ht, rfl⟩
    exact ⟨m, m, ⟨rfl, rfl⟩, t, ht, rfl⟩

theorem atomic_bindSymbol (s : Symbol) :
    Edit.Atomic
      (do let m ← get; onSymbols (SymbolTable.bind m.blocks s) : Edit Module SymbolId) := by
  apply Edit.quiet_get.bind
  intro m
  exact atomic_onSymbols (SymbolTable.atomic_bind _ s)

/-- A table is set without any check, and the one that it replaces is handed out. -/
theorem setAux_eq_ok {name : String} {table : AuxData} {old : Option AuxData} :
    m.setAux name table = .ok old m' ↔ old = m.auxData.get? name ∧
      m' = { m with auxData := m.auxData.insert name table } := by
  simp only [setAux, Edit.bind_eq_ok, Edit.get_eq_ok, Edit.set_eq_ok, Edit.pure_eq_ok]
  constructor
  · rintro ⟨_, _, ⟨rfl, rfl⟩, ⟨⟩, _, rfl, rfl, rfl⟩
    exact ⟨rfl, rfl⟩
  · rintro ⟨rfl, rfl⟩
    exact ⟨m, m, ⟨rfl, rfl⟩, ⟨⟩, _, rfl, rfl, rfl⟩

theorem removeAux_eq_ok {name : String} {old : Option AuxData} :
    m.removeAux name = .ok old m' ↔ old = m.auxData.get? name ∧
      m' = { m with auxData := m.auxData.erase name } := by
  simp only [removeAux, Edit.bind_eq_ok, Edit.get_eq_ok, Edit.set_eq_ok, Edit.pure_eq_ok]
  constructor
  · rintro ⟨_, _, ⟨rfl, rfl⟩, ⟨⟩, _, rfl, rfl, rfl⟩
    exact ⟨rfl, rfl⟩
  · rintro ⟨rfl, rfl⟩
    exact ⟨m, m, ⟨rfl, rfl⟩, ⟨⟩, _, rfl, rfl, rfl⟩

/-- Every change of a module is all or nothing. -/
theorem atomic_run (op : Operation α) : Edit.Atomic op.run := by
  cases op with
  | addBlock | addCodeBlock | addDataBlock | addProxyBlock =>
      exact atomic_onBlocks (BlockGraph.atomic_addBlock _ _)
  | addEdge => exact atomic_onBlocks (BlockGraph.atomic_addEdge _ _ _)
  | removeEdge => exact atomic_onBlocks (BlockGraph.atomic_removeEdge _)
  | setBlockAddress => exact atomic_onBlocks (BlockGraph.atomic_setBlockAddress _ _)
  | removeBlock => exact atomic_removeBlock _
  | setEntryPoint => exact atomic_setEntryPoint _
  | addSymbol | addSymbolAtEnd => exact atomic_bindSymbol _
  | removeSymbol => exact atomic_onSymbols (SymbolTable.atomic_removeSymbol _)
  | addSection => exact atomic_onSections (AddressSpace.atomic_addSection _)
  | removeSection => exact atomic_onSections (AddressSpace.atomic_removeSection _)
  | setAux | removeAux => exact Edit.quiet_get.bind fun _ => Edit.atomic_set _ _

/-- A change of the graph that leaves its tag leaves the identity of the module. -/
theorem identity_onBlocks {edit : Edit BlockGraph α} (hEdit : onBlocks edit m = .ok a m')
    (hTag : ∀ g, edit m.blocks = .ok a g → g.tag = m.blocks.tag) :
    m'.id = m.id ∧ m'.graphTag = m.graphTag := by
  obtain ⟨g, hg, rfl⟩ := onBlocks_eq_ok.mp hEdit
  exact ⟨rfl, hTag g hg⟩

/-- No change of a module touches its id or its tag. -/
theorem identity_run (op : Operation α) (hEdit : op.run m = .ok a m') :
    m'.id = m.id ∧ m'.graphTag = m.graphTag := by
  cases op with
  | addBlock | addCodeBlock | addDataBlock | addProxyBlock =>
      refine identity_onBlocks hEdit fun g hg => ?_
      obtain ⟨b, next, -, -, -, rfl⟩ := BlockGraph.addBlock_eq_ok.mp hg
      rfl
  | addEdge =>
      refine identity_onBlocks hEdit fun g hg => ?_
      obtain ⟨b, next, -, -, -, -, -, rfl⟩ := BlockGraph.addEdge_eq_ok.mp hg
      rfl
  | removeEdge =>
      refine identity_onBlocks hEdit fun g hg => ?_
      obtain ⟨-, rfl⟩ := BlockGraph.removeEdge_eq_ok.mp hg
      rfl
  | setBlockAddress =>
      refine identity_onBlocks hEdit fun g hg => ?_
      obtain ⟨b, moved, -, -, -, rfl⟩ := BlockGraph.setBlockAddress_eq_ok.mp hg
      rfl
  | removeBlock =>
      obtain ⟨-, g, hg, rfl⟩ := removeBlock_eq_ok.mp hEdit
      obtain ⟨-, -, rfl⟩ := BlockGraph.removeBlock_eq_ok.mp hg
      exact ⟨rfl, rfl⟩
  | setEntryPoint =>
      obtain ⟨-, rfl⟩ := setEntryPoint_eq_ok.mp hEdit
      exact ⟨rfl, rfl⟩
  | addSymbol | addSymbolAtEnd =>
      obtain ⟨t, -, rfl⟩ := bindSymbol_eq_ok.mp hEdit
      exact ⟨rfl, rfl⟩
  | removeSymbol =>
      obtain ⟨t, -, rfl⟩ := onSymbols_eq_ok.mp hEdit
      exact ⟨rfl, rfl⟩
  | addSection =>
      obtain ⟨s, -, rfl⟩ := onSections_eq_ok.mp hEdit
      exact ⟨rfl, rfl⟩
  | removeSection id =>
      change onSections (AddressSpace.removeSection id) m = .ok a m' at hEdit
      obtain ⟨s, -, rfl⟩ := onSections_eq_ok.mp hEdit
      exact ⟨rfl, rfl⟩
  | setAux =>
      obtain ⟨-, rfl⟩ := setAux_eq_ok.mp hEdit
      exact ⟨rfl, rfl⟩
  | removeAux =>
      obtain ⟨-, rfl⟩ := removeAux_eq_ok.mp hEdit
      exact ⟨rfl, rfl⟩

/-- No change touches the identity, whether or not it succeeds. -/
theorem identity_after (m : Module) (op : Operation α) :
    (op.run.after m).id = m.id ∧ (op.run.after m).graphTag = m.graphTag :=
  (atomic_run op).keeps (I := fun m' => m'.id = m.id ∧ m'.graphTag = m.graphTag) ⟨rfl, rfl⟩
    fun _ _ hEdit => identity_run op hEdit

end Disassembly.Module
