import Disassembly.Proofs.IdHistory

/-! Modules that are read alone. Nothing that is derived from their content is there: no edge and no
name is on a list. The lists of names make no difference to any change, so all that is said of what
changes do to the content holds as long as the lists of edges are right. -/
namespace Disassembly

namespace Json

variable {α β : Type} {P : α → Prop} {Q : β → Prop}

/-- Whatever is read has the property. -/
def Form.Ensures (f : Form α) (P : α → Prop) : Prop := ∀ v a, f.read v = some a → P a

/-- Whatever is read of the fields has the property. -/
def Record.Ensures (r : Record α) (P : α → Prop) : Prop := ∀ values a, r.read values = some a → P a

/-- If all that is made from values with one property has another, the form of what is made ensures
that one. -/
theorem Form.Ensures.as {f : Form α} {make : α → β} {view : β → α} (h : f.Ensures P)
    (hMake : ∀ a, P a → Q (make a)) : (f.as make view).Ensures Q := by
  intro v b hRead
  obtain ⟨a, ha, rfl⟩ := Option.map_eq_some_iff.mp hRead
  exact hMake a (h v a ha)

/-- A field whose value is there has what its form ensures. One without a value is refused. -/
theorem Form.Ensures.field {f : Form α} {name : String} (h : f.Ensures P) :
    (Record.field name f).Ensures P := by
  intro values a hRead
  simp only [Record.field] at hRead
  split at hRead
  · exact h _ a hRead
  · cases hRead
  · cases hRead

theorem Record.Ensures.record {r : Record α} {short : Bool} (h : r.Ensures P) :
    (Form.record r short).Ensures P := by
  intro v a hRead
  obtain ⟨values, -, ha⟩ := Option.bind_eq_some_iff.mp hRead
  exact h values a ha

/-- What is ensured of the first fields. -/
theorem Record.Ensures.first {r : Record α} {s : Record β} (h : r.Ensures P) :
    (r.and s).Ensures fun ab => P ab.1 := by
  intro values ab hRead
  obtain ⟨a, ha, hRest⟩ := Option.bind_eq_some_iff.mp hRead
  obtain ⟨b, -, hBoth⟩ := Option.bind_eq_some_iff.mp hRest
  cases hBoth
  exact h _ a ha

/-- What is ensured of the fields that follow. -/
theorem Record.Ensures.second {r : Record α} {s : Record β} (h : s.Ensures Q) :
    (r.and s).Ensures fun ab => Q ab.2 := by
  intro values ab hRead
  obtain ⟨a, -, hRest⟩ := Option.bind_eq_some_iff.mp hRead
  obtain ⟨b, hb, hBoth⟩ := Option.bind_eq_some_iff.mp hRest
  cases hBoth
  exact h _ b hb

end Json

open Json

/-- A graph that is read has no lists of edges, whatever edges it has. -/
theorem BlockGraph.ensures_form :
    BlockGraph.form.Ensures fun g => g.outgoing = ∅ ∧ g.incoming = ∅ :=
  Form.Ensures.as (P := fun _ => True) (fun _ _ _ => trivial) fun _ _ => ⟨rfl, rfl⟩

/-- The ten fields in front of the graph are passed over. -/
theorem Module.ensures_form :
    Module.form.Ensures fun m => m.blocks.outgoing = ∅ ∧ m.blocks.incoming = ∅ :=
  BlockGraph.ensures_form.field.first.second.second.second.second.second
    |>.second.second.second.second.second.record.as fun _ h => h

/-- A module that is read alone comes without lists of edges. -/
theorem Document.lists_of_readModule? {text : String} {m : Module}
    (h : readModule? text = some m) : m.blocks.outgoing = ∅ ∧ m.blocks.incoming = ∅ := by
  obtain ⟨v, -, hRead⟩ := Option.bind_eq_some_iff.mp h
  exact Module.ensures_form v m hRead

namespace Module

variable {m m' start now : Module} {α : Type} {a : α} {given taken : List ItemId}

/-- The same module with other lists of names. -/
def withNames (m : Module) (byName : NameIndex) : Module :=
  { m with symbols := { m.symbols with byName } }

/-- No change looks at the lists of names. -/
theorem run_withNames (op : Operation α) (hEdit : op.run m = .ok a m') (byName : NameIndex) :
    ∃ byName', op.run (m.withNames byName) = .ok a (m'.withNames byName') := by
  cases op with
  | addBlock | addCodeBlock | addDataBlock | addProxyBlock | addEdge | removeEdge
  | setBlockAddress =>
      obtain ⟨g, hg, rfl⟩ := onBlocks_eq_ok.mp hEdit
      exact ⟨byName, onBlocks_eq_ok.mpr ⟨g, hg, rfl⟩⟩
  | removeBlock =>
      obtain ⟨hFree, g, hg, rfl⟩ := removeBlock_eq_ok.mp hEdit
      exact ⟨byName, removeBlock_eq_ok.mpr ⟨hFree, g, hg, rfl⟩⟩
  | setEntryPoint =>
      obtain ⟨hEntry, rfl⟩ := setEntryPoint_eq_ok.mp hEdit
      exact ⟨byName, setEntryPoint_eq_ok.mpr ⟨hEntry, rfl⟩⟩
  | addSymbol | addSymbolAtEnd =>
      obtain ⟨t, ht, rfl⟩ := bindSymbol_eq_ok.mp hEdit
      obtain ⟨next, hBound, hNext, rfl, rfl⟩ := SymbolTable.bind_eq_ok.mp ht
      exact ⟨_, bindSymbol_eq_ok.mpr
        ⟨_, SymbolTable.bind_eq_ok.mpr ⟨next, hBound, hNext, rfl, rfl⟩, rfl⟩⟩
  | removeSymbol =>
      obtain ⟨t, ht, rfl⟩ := onSymbols_eq_ok.mp hEdit
      obtain ⟨hs, rfl⟩ := SymbolTable.removeSymbol_eq_ok.mp ht
      exact ⟨_, onSymbols_eq_ok.mpr ⟨_, SymbolTable.removeSymbol_eq_ok.mpr ⟨hs, rfl⟩, rfl⟩⟩
  | addSection =>
      obtain ⟨s, hs, rfl⟩ := onSections_eq_ok.mp hEdit
      exact ⟨byName, onSections_eq_ok.mpr ⟨s, hs, rfl⟩⟩
  | removeSection id =>
      change m.removeSection id = .ok a m' at hEdit
      obtain ⟨s, hs, rfl⟩ := onSections_eq_ok.mp hEdit
      have hRun : (m.withNames byName).removeSection id = .ok a _ :=
        onSections_eq_ok.mpr ⟨s, hs, rfl⟩
      exact ⟨byName, hRun⟩
  | setAux =>
      obtain ⟨hOld, rfl⟩ := setAux_eq_ok.mp hEdit
      exact ⟨byName, setAux_eq_ok.mpr ⟨hOld, rfl⟩⟩
  | removeAux =>
      obtain ⟨hOld, rfl⟩ := removeAux_eq_ok.mp hEdit
      exact ⟨byName, removeAux_eq_ok.mpr ⟨hOld, rfl⟩⟩

/-- The rules do not mention the lists of names. -/
theorem wellFormed_withNames {byName : NameIndex} :
    (m.withNames byName).WellFormed ↔ m.WellFormed := by
  have hStored : (m.withNames byName).stored = m.stored := rfl
  rw [← wellFormed_stored_iff, hStored, wellFormed_stored_iff]

/-- With the lists of names made anew, nothing is missing. -/
theorem WellFormed.sound_withNames (h : m.WellFormed) (hLinked : m.blocks.Linked) :
    (m.withNames m.symbols.relink.byName).Sound := by
  have hSymbols : m.symbols.relink = { m.symbols with byName := m.symbols.relink.byName } :=
    congrArg (fun t => { t with byName := m.symbols.relink.byName }) m.symbols.stored_relink
  exact ⟨wellFormed_withNames.mpr h, hLinked, hSymbols ▸ m.symbols.linked_relink⟩

/-- The rules of a module are kept as long as its lists of edges are right. -/
theorem WellFormed.run_of_linked (h : m.WellFormed) (hLinked : m.blocks.Linked)
    (op : Operation α) (hEdit : op.run m = .ok a m') : m'.WellFormed := by
  obtain ⟨byName, hRun⟩ := run_withNames op hEdit m.symbols.relink.byName
  exact wellFormed_withNames.mp (sound_run (h.sound_withNames hLinked) op hRun).wellFormed

theorem WellFormed.move_of_linked (h : m.WellFormed) (hLinked : m.blocks.Linked) (id : ModuleId)
    (tag : GraphTag) : (m.withIdentity id tag).WellFormed :=
  wellFormed_withNames.mp (sound_withIdentity (h.sound_withNames hLinked) id tag).wellFormed

end Module

end Disassembly
