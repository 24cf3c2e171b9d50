import Disassembly.Proofs.IdHistory
import Disassembly.Proofs.Provenance

/-! Symbols that mark the end of a block. Changes give such a symbol a block, which then stays as
long as the symbol does. Loading only looks for the block of a symbol that names one, so a mark of
the end of nothing is let in, and it stays what it is until it is removed. -/
namespace Disassembly

namespace SymbolTable

variable {t t' t'' : SymbolTable}

/-- Every mark of an end names a block. -/
def MarksEnds (t : SymbolTable) : Prop :=
  ∀ i s, t.symbol? i = some s → s.atEnd = true → ∃ id, s.referent = .block id

/-- Every mark of an end that names no block was there before. -/
def EndsFrom (t t' : SymbolTable) : Prop :=
  ∀ i s, t'.symbol? i = some s → s.atEnd = true →
    (∃ id, s.referent = .block id) ∨ t.symbol? i = some s

/-- Where the symbols are the same, so are the marks. The indices do not matter. -/
theorem EndsFrom.of_symbols (h : t'.symbols = t.symbols) : t.EndsFrom t' := by
  intro i s hs _
  rw [symbol?, h] at hs
  exact .inr hs

/-- Marks without a block can be followed back through several changes. -/
theorem EndsFrom.trans (first : t.EndsFrom t') (second : t'.EndsFrom t'') : t.EndsFrom t'' := by
  intro i s hs hEnd
  rcases second i s hs hEnd with hBlock | hMiddle
  · exact .inl hBlock
  · exact first i s hMiddle hEnd

/-- If there were no marks without a block before, there are none after. -/
theorem MarksEnds.onward (h : t.MarksEnds) (hEnds : t.EndsFrom t') : t'.MarksEnds := by
  intro i s hs hEnd
  rcases hEnds i s hs hEnd with hBlock | hBefore
  · exact hBlock
  · exact h i s hBefore hEnd

/-- A symbol is bound. If it marks an end, it names the block of that end. -/
theorem endsFrom_bind {g : BlockGraph} {s : Symbol} {id : SymbolId}
    (hMark : s.atEnd = true → ∃ id, s.referent = .block id) (hEdit : bind g s t = .ok id t') :
    t.EndsFrom t' := by
  obtain ⟨next, -, -, -, rfl⟩ := bind_eq_ok.mp hEdit
  intro i s' hs' hEnd
  rcases Table.get?_insert_eq_some_iff.mp hs' with ⟨-, rfl⟩ | ⟨-, hOld⟩
  · exact .inl (hMark hEnd)
  · exact .inr hOld

/-- A symbol that is taken out leaves the marks of the others. -/
theorem endsFrom_removeSymbol {id : SymbolId} {s : Symbol}
    (hEdit : removeSymbol id t = .ok s t') : t.EndsFrom t' := by
  obtain ⟨-, rfl⟩ := removeSymbol_eq_ok.mp hEdit
  intro i s' hs' _
  exact .inr (Table.get?_erase_eq_some_iff.mp hs').2

/-- A symbol that names no block does not depend on the tag. -/
theorem endsFrom_retag (t : SymbolTable) (old new : GraphTag) : t.EndsFrom (t.retag old new) := by
  intro i s hs _
  obtain ⟨s, hOld, rfl⟩ := Table.get?_mapValues_eq_some_iff.mp hs
  cases hReferent : s.referent with
  | block id =>
      refine .inl ?_
      by_cases hTag : id.graph = old <;> simp [hReferent, hTag]
  | address | value => exact .inr hOld

end SymbolTable

namespace Module

variable {m m' start now : Module} {α : Type} {a : α} {given taken : List ItemId}

/-- One step: a change that succeeds makes no mark without a block. -/
theorem endsFrom_run (op : Operation α) (hEdit : op.run m = .ok a m') :
    m.symbols.EndsFrom m'.symbols := by
  cases op with
  | addBlock | addCodeBlock | addDataBlock | addProxyBlock | addEdge | removeEdge
  | setBlockAddress =>
      obtain ⟨g, -, rfl⟩ := onBlocks_eq_ok.mp hEdit
      exact .of_symbols rfl
  | removeBlock =>
      obtain ⟨-, g, -, rfl⟩ := removeBlock_eq_ok.mp hEdit
      exact .of_symbols rfl
  | setEntryPoint =>
      obtain ⟨-, rfl⟩ := setEntryPoint_eq_ok.mp hEdit
      exact .of_symbols rfl
  | addSymbol =>
      obtain ⟨t, ht, rfl⟩ := bindSymbol_eq_ok.mp hEdit
      exact SymbolTable.endsFrom_bind (fun hEnd => absurd hEnd Bool.false_ne_true) ht
  | addSymbolAtEnd name block =>
      obtain ⟨t, ht, rfl⟩ := bindSymbol_eq_ok.mp hEdit
      exact SymbolTable.endsFrom_bind (fun _ => ⟨block, rfl⟩) ht
  | removeSymbol =>
      obtain ⟨t, ht, rfl⟩ := onSymbols_eq_ok.mp hEdit
      exact SymbolTable.endsFrom_removeSymbol ht
  | addSection =>
      obtain ⟨s, -, rfl⟩ := onSections_eq_ok.mp hEdit
      exact .of_symbols rfl
  | removeSection id =>
      change m.removeSection id = .ok a m' at hEdit
      obtain ⟨s, -, rfl⟩ := onSections_eq_ok.mp hEdit
      exact .of_symbols rfl
  | setAux =>
      obtain ⟨-, rfl⟩ := setAux_eq_ok.mp hEdit
      exact .of_symbols rfl
  | removeAux =>
      obtain ⟨-, rfl⟩ := removeAux_eq_ok.mp hEdit
      exact .of_symbols rfl

/-- One step, whether or not it succeeds. -/
theorem endsFrom_after (m : Module) (op : Operation α) :
    m.symbols.EndsFrom (op.run.after m).symbols :=
  (atomic_run op).keeps (.of_symbols rfl) fun _ _ hEdit => endsFrom_run op hEdit

/-- Storing and indexing again keep the symbols as they are. -/
theorem symbols_relink_stored (m : Module) : m.stored.relink.symbols.symbols = m.symbols.symbols :=
  SymbolTable.symbols_relink m.symbols.stored

/-- No history makes a mark of an end without a block. -/
theorem Run.endsFrom (run : start.Run given taken now) : start.symbols.EndsFrom now.symbols := by
  induction run with
  | start => exact .of_symbols rfl
  | change _ op ih => exact ih.trans (endsFrom_after _ op)
  | reload _ hHere hReload hThere ih =>
      rw [hReload.module_eq hHere hThere]
      exact ih.trans (.of_symbols (symbols_relink_stored _))
  | move _ id tag ih => exact ih.trans (SymbolTable.endsFrom_retag _ _ _)

/-- Every mark of an end in the module names a block. -/
def MarksEnds (m : Module) : Prop := m.symbols.MarksEnds

/-- A module that is merged, with a new id and tag or without, keeps a block at each mark. -/
theorem Moved.marksEnds (hMoved : m.Moved m') (h : m.MarksEnds) : m'.MarksEnds := by
  induction hMoved with
  | here => exact h
  | again _ id tag ih => exact ih.onward (SymbolTable.endsFrom_retag _ _ _)

theorem marksEnds_stored_relink : m.stored.relink.MarksEnds ↔ m.MarksEnds := by
  have hSymbols := symbols_relink_stored m
  exact ⟨fun h => h.onward (.of_symbols hSymbols.symm), fun h => h.onward (.of_symbols hSymbols)⟩

theorem marksEnds_build (d : Description) (id : ModuleId) (tag : GraphTag) :
    (build d id tag).MarksEnds := by
  intro i s hs
  cases hs

/-- A mark of an end that names a block names one of the module. -/
theorem WellFormed.containsBlock_of_symbol {i : SymbolId} {s : Symbol} {id : BlockId}
    (h : m.WellFormed) (hs : m.symbols.symbol? i = some s) (hBlock : s.referent = .block id) :
    m.blocks.containsBlock id = true :=
  BlockGraph.containsBlock_iff.mpr (h.symbols.referent _ s id hs hBlock)

end Module

/-- Every mark of an end in the program names a block. -/
def Program.MarksEnds (p : Program) : Prop := ∀ m ∈ p.modules, m.MarksEnds

/-- A program that comes back from one of its forms is one that loading gives. -/
theorem Program.Reloads.loaded {p back : Program} (h : p.Reloads back) : back.Loaded :=
  h.imp (fun ⟨options, hDecode⟩ => ⟨options, _, hDecode⟩) fun hDecode => ⟨_, hDecode⟩

/-- Loading neither looks for marks without a block nor makes any. -/
theorem Program.Reloads.marksEnds {p back : Program} (h : p.Reloads back) :
    back.MarksEnds ↔ p.MarksEnds := by
  rw [h.eq_relink]
  simp [MarksEnds, relink, stored, Module.marksEnds_stored_relink]

/-- A mark always has a block: so it is in a new module, and every operation and every move keeps it
so. Loading is not among these steps. -/
theorem Module.lasting_marksEnds : Module.Lasting Module.MarksEnds where
  build := Module.marksEnds_build
  operation m op h := h.onward (Module.endsFrom_after m op)
  moved hMoved h := hMoved.marksEnds h

/-- By induction over how the program came about, where the programs that are loaded are taken to
have a block at each mark. -/
theorem Program.ReachableBy.marksEnds {p : Program} (h : p.ReachableBy MarksEnds) :
    p.MarksEnds :=
  h.lasting Module.lasting_marksEnds fun _ hHere => hHere

namespace Program

/-- A symbol that marks the end of something marks that of a live block of its module, however a
program came about, if that holds of the programs that were loaded for it. Without that condition,
which covers all programs when it asks nothing, what is marked is live if it is a block. A mark of
anything else is made by no change: of whatever becomes of a module, it was there before. Loading is
where such marks come in, since a program is loaded with the marks with which it was stored. -/
theorem end_marks_have_blocks {p : Program} (hp : p.Reachable) :
    (p.ReachableBy MarksEnds → ∀ m ∈ p.modules, ∀ i s, m.symbols.symbol? i = some s →
      s.atEnd = true → ∃ id, s.referent = .block id ∧ m.blocks.containsBlock id = true) ∧
    p.ReachableBy (fun _ => True) ∧
    (∀ m ∈ p.modules, ∀ i s id, m.symbols.symbol? i = some s → s.referent = .block id →
      m.blocks.containsBlock id = true) ∧
    (∀ m ∈ p.modules, ∀ {given taken : List ItemId} {now : Module}, m.Run given taken now →
      ∀ i s, now.symbols.symbol? i = some s → s.atEnd = true →
        (∃ id, s.referent = .block id ∧ now.blocks.containsBlock id = true) ∨
          m.symbols.symbol? i = some s) ∧
    ∀ back, p.Reloads back → (back.MarksEnds ↔ p.MarksEnds) := by
  have hSound := hp.sound.modules
  refine ⟨fun hMarks m hm i s hs hEnd => ?_, hp.reachableBy, fun m hm i s id hs hBlock => ?_,
    fun m hm given taken now run i s hs hEnd => ?_, fun back hReload => hReload.marksEnds⟩
  · obtain ⟨id, hBlock⟩ := hMarks.marksEnds m hm i s hs hEnd
    exact ⟨id, hBlock, (hSound m hm).wellFormed.containsBlock_of_symbol hs hBlock⟩
  · exact (hSound m hm).wellFormed.containsBlock_of_symbol hs hBlock
  · apply (run.endsFrom i s hs hEnd).imp_left
    intro ⟨id, hBlock⟩
    have hNow := (run.evolves (hSound m hm)).1.wellFormed
    exact ⟨id, hBlock, hNow.containsBlock_of_symbol hs hBlock⟩

/-- A program with a block that has a symbol at each of its ends. -/
def bracketed : Program :=
  let id : ModuleId := ⟨.ofLeading [1]⟩
  let tag : GraphTag := ⟨.ofLeading [2]⟩
  let m := (Module.Operation.addSymbolAtEnd "stop" ⟨tag, 0⟩).run.after (.recursion id tag)
  (addModule m).after {}

theorem reachable_bracketed (allowed : Program → Prop) : bracketed.ReachableBy allowed := by
  apply ReachableBy.addModule .empty
  apply Module.ReachableBy.operation
  unfold Module.recursion
  repeat apply Module.ReachableBy.operation
  exact .build _ _ _

/-- The program is stored, loaded and merged with itself. In both modules the end that is marked is
that of their own block, and so it is in a module that is moved and keeps its block because of the
mark. -/
theorem end_marks_have_blocks_bracketed :
    let copy := bracketed.stored.relink
    let p := (merge copy .regenerate ⟨[⟨.ofLeading [3]⟩], [⟨.ofLeading [4]⟩]⟩).after copy
    let first : BlockId := ⟨⟨.ofLeading [2]⟩, 0⟩
    let second : BlockId := ⟨⟨.ofLeading [4]⟩, 0⟩
    bracketed.Reloads copy ∧ copy.MarksEnds ∧ p.ReachableBy MarksEnds ∧
      ∃ m n, p.modules = [m, n] ∧
        (m.symbols.symbol? ⟨1⟩ = some ⟨"stop", .block first, true⟩ ∧
          m.blocks.containsBlock first = true) ∧
        (n.symbols.symbol? ⟨1⟩ = some ⟨"stop", .block second, true⟩ ∧
          n.blocks.containsBlock second = true) ∧
        let moved := m.withIdentity ⟨.ofLeading [5]⟩ second.graph
        let kept := (Module.Operation.removeBlock second).run.after moved
        kept.symbols.symbol? ⟨1⟩ = some ⟨"stop", .block second, true⟩ ∧
          kept.blocks.containsBlock second = true := by
  intro copy p first second
  have hStored := reachable_bracketed MarksEnds
  have hReload : bracketed.Reloads copy :=
    reloads_of_wellFormed hStored.reachable.sound.wellFormed
  obtain ⟨-, -, -, -, hLoading⟩ := end_marks_have_blocks hStored.reachable
  have hMarks : copy.MarksEnds := (hLoading copy hReload).mpr hStored.marksEnds
  have hCopy : copy.ReachableBy MarksEnds := .loaded hReload.loaded hMarks
  have hMerged : p.ReachableBy MarksEnds := hCopy.merge hCopy _ _
  obtain ⟨hBlocks, -, -, hHistory, -⟩ := end_marks_have_blocks hMerged.reachable
  have hModules : ∃ m n, p.modules = [m, n] ∧
      m.symbols.symbol? ⟨1⟩ = some ⟨"stop", .block first, true⟩ ∧
      n.symbols.symbol? ⟨1⟩ = some ⟨"stop", .block second, true⟩ ∧
      ((Module.Operation.removeBlock second).run.after
        (m.withIdentity ⟨.ofLeading [5]⟩ second.graph)).symbols.symbol? ⟨1⟩ =
          some ⟨"stop", .block second, true⟩ :=
    ⟨_, _, rfl, by decide +kernel, by decide +kernel, by decide +kernel⟩
  obtain ⟨m, n, hBoth, hFirst, hSecond, hKept⟩ := hModules
  have hMember : m ∈ p.modules := by simp [hBoth]
  have hRun : m.Run _ _ _ :=
    (Module.Run.start.move ⟨.ofLeading [5]⟩ second.graph).change (.removeBlock second)
  obtain ⟨_, hSame, hLiveFirst⟩ := hBlocks hMerged m hMember _ _ hFirst rfl
  cases hSame
  obtain ⟨_, hSame, hLiveSecond⟩ := hBlocks hMerged n (by simp [hBoth]) _ _ hSecond rfl
  cases hSame
  refine ⟨hReload, hMarks, hMerged, m, n, hBoth, ⟨hFirst, hLiveFirst⟩, ⟨hSecond, hLiveSecond⟩,
    hKept, ?_⟩
  rcases hHistory m hMember hRun _ _ hKept rfl with
    ⟨_, hSame, hLive⟩ | hStart
  · cases hSame
    exact hLive
  · exact absurd (hFirst.symm.trans hStart) (by decide)

/-- A program with a symbol that marks the end of a value. -/
def endOfValue : Program where
  modules := [{ Module.build { name := "end" } default default with
    symbols := { nextSymbol := 1, symbols := .ofList [(0, ⟨"end", .value 0, true⟩)] } }]

/-- The program is let in from its document and from its archive, so that a mark of an end is
there which has no block. -/
theorem loading_admits_end_of_value :
    let p := endOfValue.stored.relink
    Document.decode (Document.encode endOfValue) = .ok p ∧
      (∀ options, Archive.decode options (Archive.encode endOfValue) = .ok p) ∧ p.Reachable ∧
      ∃ m ∈ p.modules, m.symbols.symbol? ⟨0⟩ = some ⟨"end", .value 0, true⟩ ∧ ¬m.MarksEnds := by
  intro p
  have hWellFormed : endOfValue.WellFormed := check_eq_ok_iff.mp (by decide +kernel)
  have hDocument : Document.decode (Document.encode endOfValue) = .ok p := by
    rw [Document.decode_encode, Archive.accept_stored hWellFormed]
  have hMark : ∃ m ∈ p.modules, m.symbols.symbol? ⟨0⟩ = some ⟨"end", .value 0, true⟩ :=
    ⟨_, List.mem_singleton_self _, by decide +kernel⟩
  obtain ⟨m, hm, hs⟩ := hMark
  refine ⟨hDocument, fun options => ?_, .document hDocument, m, hm, hs, fun hMarks => ?_⟩
  · rw [Archive.decode_encode options (by decide +kernel), Archive.accept_stored hWellFormed]
  · obtain ⟨id, hBlock⟩ := hMarks _ _ hs rfl
    cases hBlock

end Program

end Disassembly
