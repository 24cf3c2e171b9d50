import Disassembly.Program
import Mathlib.Data.List.Nodup

/-! The rules of a program, stated of its content alone. Nothing is said of the lists that are
derived from the content, and nothing of the order in which the rules are looked at. -/
namespace Disassembly

/-- The end of the block is an address, if the block has a place at all. -/
def Block.Fits (b : Block) : Prop :=
  ∀ a n, b.address = some a → b.size = some n → a.toNat + n.toNat < UInt64.size

/-- The section has a name and its end is an address. -/
def Section.Fits (s : Section) : Prop :=
  s.name ≠ "" ∧ s.start.toNat + s.size.toNat < UInt64.size

/-- The rules of a graph. An endpoint that resolves carries the tag of the graph and names a
live block. -/
structure BlockGraph.WellFormed (g : BlockGraph) : Prop where
  blockIndex : ∀ i b, g.blocks.get? i = some b → i < g.nextBlock
  edgeIndex : ∀ i e, g.edges.get? i = some e → i < g.nextEdge
  blockFits : ∀ i b, g.blocks.get? i = some b → b.Fits
  source : ∀ i e, g.edges.get? i = some e →
    ∃ b, g.block? e.source = some b ∧ b.isProxy = false
  target : ∀ i e, g.edges.get? i = some e → ∃ b, g.block? e.target = some b

/-- The rules of the symbols of a module, next to its graph. -/
structure SymbolTable.WellFormed (t : SymbolTable) (g : BlockGraph) : Prop where
  symbolIndex : ∀ i s, t.symbols.get? i = some s → i < t.nextSymbol
  referent : ∀ i s id, t.symbols.get? i = some s → s.referent = .block id →
    ∃ b, g.block? id = some b

structure AddressSpace.WellFormed (s : AddressSpace) : Prop where
  sectionIndex : ∀ i x, s.sections.get? i = some x → i < s.nextSection
  sectionFits : ∀ i x, s.sections.get? i = some x → x.Fits

structure Module.WellFormed (m : Module) : Prop where
  blocks : m.blocks.WellFormed
  symbols : m.symbols.WellFormed m.blocks
  sections : m.sections.WellFormed
  entryPoint : ∀ id, m.entryPoint = some id →
    ∃ b, m.blocks.block? id = some b ∧ b.isCode = true

/-- No two modules share an id or a tag. -/
structure Program.Distinct (modules : List Module) : Prop where
  ids : (modules.map Module.id).Nodup
  tags : (modules.map Module.graphTag).Nodup

structure Program.WellFormed (p : Program) : Prop where
  distinct : Program.Distinct p.modules
  modules : ∀ m ∈ p.modules, m.WellFormed

/-- Ids under one tag are told apart by the index. -/
theorem BlockId.index_eq_iff {id id' : BlockId} (h : id.graph = id'.graph) :
    id.index = id'.index ↔ id = id' :=
  ⟨congrArg₂ BlockId.mk h, congrArg BlockId.index⟩

namespace BlockGraph

/-- An id resolves if it has the tag of the graph and a block has its index. The tag is looked at
first. -/
theorem block?_eq_some_iff {g : BlockGraph} {id : BlockId} {b : Block} :
    g.block? id = some b ↔ id.graph = g.tag ∧ g.blocks.get? id.index = some b := by
  unfold block? owns
  by_cases h : id.graph = g.tag <;> simp [h]

/-- A graph contains the blocks whose ids resolve. -/
theorem containsBlock_iff {g : BlockGraph} {id : BlockId} :
    g.containsBlock id = true ↔ ∃ b, g.block? id = some b := by
  rw [containsBlock, Option.isSome_iff_exists]

theorem block?_eq_none_iff {g : BlockGraph} {id : BlockId} :
    g.block? id = none ↔ g.containsBlock id = false := by
  rw [containsBlock, Option.isSome_eq_false_iff, Option.isNone_iff_eq_none]

/-- No id of another graph resolves, whatever its index. -/
theorem tag_of_containsBlock {g : BlockGraph} {id : BlockId} (h : g.containsBlock id = true) :
    id.graph = g.tag := by
  obtain ⟨b, hb⟩ := containsBlock_iff.mp h
  exact (block?_eq_some_iff.mp hb).1

@[simp] theorem block?_stored (g : BlockGraph) (id : BlockId) :
    g.stored.block? id = g.block? id := rfl

/-- Nothing derived is looked at. -/
theorem wellFormed_stored_iff {g : BlockGraph} : g.stored.WellFormed ↔ g.WellFormed :=
  ⟨fun ⟨a, b, c, d, e⟩ => ⟨a, b, c, d, e⟩, fun ⟨a, b, c, d, e⟩ => ⟨a, b, c, d, e⟩⟩

end BlockGraph

namespace Module

/-- The rules of a module are about what is stored of it. -/
theorem wellFormed_stored_iff {m : Module} : m.stored.WellFormed ↔ m.WellFormed := by
  constructor
  · rintro ⟨hBlocks, ⟨hIndex, hReferent⟩, hSections, hEntry⟩
    exact ⟨BlockGraph.wellFormed_stored_iff.mp hBlocks, ⟨hIndex, hReferent⟩, hSections, hEntry⟩
  · rintro ⟨hBlocks, ⟨hIndex, hReferent⟩, hSections, hEntry⟩
    exact ⟨BlockGraph.wellFormed_stored_iff.mpr hBlocks, ⟨hIndex, hReferent⟩, hSections, hEntry⟩

@[simp] theorem graphTag_stored (m : Module) : m.stored.graphTag = m.graphTag := rfl

@[simp] theorem id_stored (m : Module) : m.stored.id = m.id := rfl

end Module

namespace Program

/-- Two lists can stand one behind the other when nothing of the one is in the other. -/
theorem distinct_append_iff {before behind : List Module} :
    Distinct (before ++ behind) ↔ Distinct before ∧ Distinct behind ∧
      ∀ m ∈ behind, m.id ∉ before.map Module.id ∧ m.graphTag ∉ before.map Module.graphTag := by
  have hIds : ((before ++ behind).map Module.id).Nodup ↔ (before.map Module.id).Nodup ∧
      (behind.map Module.id).Nodup ∧ ∀ m ∈ behind, m.id ∉ before.map Module.id := by
    rw [List.map_append, List.nodup_append']
    simp only [List.disjoint_right, List.forall_mem_map]
  have hTags : ((before ++ behind).map Module.graphTag).Nodup ↔
      (before.map Module.graphTag).Nodup ∧ (behind.map Module.graphTag).Nodup ∧
        ∀ m ∈ behind, m.graphTag ∉ before.map Module.graphTag := by
    rw [List.map_append, List.nodup_append']
    simp only [List.disjoint_right, List.forall_mem_map]
  constructor
  · rintro ⟨hI, hT⟩
    obtain ⟨hIBefore, hIBehind, hIApart⟩ := hIds.mp hI
    obtain ⟨hTBefore, hTBehind, hTApart⟩ := hTags.mp hT
    exact ⟨⟨hIBefore, hTBefore⟩, ⟨hIBehind, hTBehind⟩, fun m hm => ⟨hIApart m hm, hTApart m hm⟩⟩
  · rintro ⟨hBefore, hBehind, hApart⟩
    exact ⟨hIds.mpr ⟨hBefore.ids, hBehind.ids, fun m hm => (hApart m hm).1⟩,
      hTags.mpr ⟨hBefore.tags, hBehind.tags, fun m hm => (hApart m hm).2⟩⟩

theorem distinct_nil : Distinct [] := ⟨.nil, .nil⟩

/-- Modules are distinct if those behind the first are, and the first shares nothing with any of
them. -/
theorem distinct_cons_iff {m : Module} {rest : List Module} :
    Distinct (m :: rest) ↔ Distinct rest ∧
      ∀ n ∈ rest, n.id ≠ m.id ∧ n.graphTag ≠ m.graphTag := by
  rw [← List.singleton_append, distinct_append_iff]
  constructor
  · rintro ⟨-, hRest, hApart⟩
    exact ⟨hRest, fun n hn => by simpa using hApart n hn⟩
  · rintro ⟨hRest, hApart⟩
    exact ⟨⟨by simp, by simp⟩, hRest, fun n hn => by simpa using hApart n hn⟩

/-- The rules of a program are about what is stored of its modules. -/
theorem wellFormed_stored_iff {p : Program} : p.stored.WellFormed ↔ p.WellFormed := by
  have hIds : p.stored.modules.map Module.id = p.modules.map Module.id := by
    simp [stored, Function.comp_def]
  have hTags : p.stored.modules.map Module.graphTag = p.modules.map Module.graphTag := by
    simp [stored, Function.comp_def]
  constructor
  · rintro ⟨⟨hId, hTag⟩, hModules⟩
    refine ⟨⟨hIds ▸ hId, hTags ▸ hTag⟩, fun m hm => ?_⟩
    exact Module.wellFormed_stored_iff.mp (hModules _ (List.mem_map_of_mem hm))
  · rintro ⟨⟨hId, hTag⟩, hModules⟩
    refine ⟨⟨hIds ▸ hId, hTags ▸ hTag⟩, fun m hm => ?_⟩
    obtain ⟨m, hMem, rfl⟩ := List.mem_map.mp hm
    exact Module.wellFormed_stored_iff.mpr (hModules m hMem)

end Program

end Disassembly
