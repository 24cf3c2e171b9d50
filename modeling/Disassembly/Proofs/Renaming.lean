import Disassembly.Proofs.ModuleSound

/-! Content carried over to another tag. When a module moves to a new identity, references under
its old tag are rewritten and others are left alone. In a module that keeps its rules no
others exist, so the move puts every reference under the new tag and changes nothing else. -/
namespace Disassembly

/-- The block of the same index under another tag. -/
def BlockId.under (id : BlockId) (tag : GraphTag) : BlockId := ⟨tag, id.index⟩

def Edge.under (e : Edge) (tag : GraphTag) : Edge :=
  ⟨e.source.under tag, e.target.under tag, e.label⟩

def Referent.under : Referent → GraphTag → Referent
  | .block id, tag => .block (id.under tag)
  | .address a, _ => .address a
  | .value v, _ => .value v

def Symbol.under (s : Symbol) (tag : GraphTag) : Symbol :=
  { s with referent := s.referent.under tag }

/-- The module under another id and tag, with all its references to blocks under that tag. All
else is as it was, and so are the derived lists, which know blocks by their index. -/
def Module.under (m : Module) (id : ModuleId) (tag : GraphTag) : Module :=
  { m with
    id
    blocks := { m.blocks with tag, edges := m.blocks.edges.mapValues (·.under tag) }
    symbols := { m.symbols with symbols := m.symbols.symbols.mapValues (·.under tag) }
    entryPoint := m.entryPoint.map (·.under tag) }

section

variable {id : BlockId} {e : Edge} {s : Symbol} {tag tag' : GraphTag}

@[simp] theorem BlockId.under_under : (id.under tag).under tag' = id.under tag' := rfl

@[simp] theorem Edge.under_under : (e.under tag).under tag' = e.under tag' := rfl

@[simp] theorem Symbol.under_under : (s.under tag).under tag' = s.under tag' := by
  obtain ⟨name, referent, atEnd⟩ := s
  cases referent <;> rfl

/-- An id that already has the tag is the same under it. -/
theorem BlockId.under_of_graph_eq (h : id.graph = tag) : id.under tag = id := by
  cases h
  rfl

/-- An edge between blocks of a tag is the same under that tag. -/
theorem Edge.under_of_graph_eq (hSource : e.source.graph = tag) (hTarget : e.target.graph = tag) :
    e.under tag = e := by
  rw [Edge.under, BlockId.under_of_graph_eq hSource, BlockId.under_of_graph_eq hTarget]

/-- A symbol is the same under a tag if the block that it refers to has it. Addresses and values
carry no tag. -/
theorem Symbol.under_of_graph_eq (h : ∀ id, s.referent = .block id → id.graph = tag) :
    s.under tag = s := by
  obtain ⟨name, referent, atEnd⟩ := s
  cases referent with
  | block id =>
      have hTag : id.under tag = id := BlockId.under_of_graph_eq (h id rfl)
      simp only [Symbol.under, Referent.under, hTag]
  | address a => rfl
  | value v => rfl

end

namespace Table

variable {κ α β γ : Type} [Ord κ]

/-- Content that is rewritten twice could have been rewritten at once. -/
theorem mapValues_mapValues (f : α → β) (g : β → γ) (t : Table κ α) :
    (t.mapValues f).mapValues g = t.mapValues fun v => g (f v) :=
  ext_entries (by simp [mapValues, Function.comp_def])

/-- Only what is in the map is rewritten, so the two functions need not agree on anything else. -/
theorem mapValues_congr [Std.LawfulEqOrd κ] {f g : α → β} {t : Table κ α}
    (h : ∀ k v, t.get? k = some v → f v = g v) : t.mapValues f = t.mapValues g := by
  refine ext_entries (List.map_congr_left fun entry hm => ?_)
  rw [h entry.1 entry.2 (get?_eq_some_iff_mem.mpr hm)]

end Table

namespace Module

variable {m : Module} {id id' : ModuleId} {tag tag' : GraphTag}

@[simp] theorem id_under : (m.under id tag).id = id := rfl

@[simp] theorem graphTag_under : (m.under id tag).graphTag = tag := rfl

@[simp] theorem under_under : (m.under id tag).under id' tag' = m.under id' tag' := by
  simp [under, Table.mapValues_mapValues, Function.comp_def]

/-- The endpoints of edges carry the tag of the module. -/
theorem WellFormed.edge_under (h : m.WellFormed) {i : UInt32} {e : Edge}
    (he : m.blocks.edges.get? i = some e) : e.under m.graphTag = e := by
  obtain ⟨b, hSource, -⟩ := h.blocks.source i e he
  obtain ⟨b', hTarget⟩ := h.blocks.target i e he
  exact Edge.under_of_graph_eq (BlockGraph.block?_eq_some_iff.mp hSource).1
    (BlockGraph.block?_eq_some_iff.mp hTarget).1

/-- The blocks that symbols refer to carry it too. -/
theorem WellFormed.symbol_under (h : m.WellFormed) {i : UInt32} {s : Symbol}
    (hs : m.symbols.symbols.get? i = some s) : s.under m.graphTag = s := by
  refine Symbol.under_of_graph_eq fun id hBlock => ?_
  obtain ⟨b, hb⟩ := h.symbols.referent i s id hs hBlock
  exact (BlockGraph.block?_eq_some_iff.mp hb).1

/-- Rewriting the references under the old tag rewrites all of them. -/
theorem withIdentity_eq_under (h : m.WellFormed) : m.withIdentity id tag = m.under id tag := by
  have hSymbols : m.symbols.retag m.graphTag tag =
      { m.symbols with symbols := m.symbols.symbols.mapValues (·.under tag) } := by
    rw [SymbolTable.retag]
    congr 1
    refine Table.mapValues_congr fun i s hs => ?_
    obtain ⟨name, referent, atEnd⟩ := s
    cases referent with
    | block id =>
        obtain ⟨b, hb⟩ := h.symbols.referent i _ id hs rfl
        exact if_pos (BlockGraph.block?_eq_some_iff.mp hb).1
    | address a => rfl
    | value v => rfl
  have hEntry : (m.entryPoint.map fun entry =>
      if entry.graph = m.graphTag then (⟨tag, entry.index⟩ : BlockId) else entry) =
      m.entryPoint.map (·.under tag) := by
    refine Option.map_congr fun entry hSome => ?_
    obtain ⟨b, hb, -⟩ := h.entryPoint entry hSome
    exact if_pos (BlockGraph.block?_eq_some_iff.mp hb).1
  rw [withIdentity, hSymbols, hEntry]
  rfl

/-- A sound module is sound under any other identity. -/
theorem Sound.under (h : m.Sound) (id : ModuleId) (tag : GraphTag) : (m.under id tag).Sound := by
  rw [← withIdentity_eq_under h.wellFormed]
  exact sound_withIdentity h id tag

end Module

end Disassembly
