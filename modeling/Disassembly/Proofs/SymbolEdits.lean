import Disassembly.Proofs.GraphSound

/-! Changes of the symbols and of the sections of a module: what each does when it succeeds,
and that the rules are kept along with the lists of names. -/
namespace Disassembly

namespace SymbolTable

variable {t t' : SymbolTable} {g : BlockGraph}

/-- The rules of the symbols, and lists of names that agree with the store. -/
structure Sound (t : SymbolTable) (g : BlockGraph) : Prop where
  wellFormed : t.WellFormed g
  linked : t.Linked

/-- A symbol does not dangle when it refers to a live block, or to no block. -/
theorem dangling?_eq_none_iff {s : Symbol} :
    dangling? g s = none ↔ ∀ id, s.referent = .block id → ∃ b, g.block? id = some b := by
  unfold dangling?
  cases s.referent with
  | block id =>
      by_cases h : g.containsBlock id = true
      · have hLive := BlockGraph.containsBlock_iff.mp h
        simp [h, hLive]
      · have hGone : ¬∃ b, g.block? id = some b := fun hb => h (BlockGraph.containsBlock_iff.mpr hb)
        simpa [h] using hGone
  | address a => simp
  | value v => simp

/-- When a symbol is bound, and the table then: it gets the next id, and it is the last one under
its name. -/
theorem bind_eq_ok {s : Symbol} {id : SymbolId} :
    bind g s t = .ok id t' ↔
      ∃ next, dangling? g s = none ∧ nextIndex? t.nextSymbol = some next ∧
        id = ⟨t.nextSymbol⟩ ∧
        t' = { t with
          nextSymbol := next
          symbols := t.symbols.insert t.nextSymbol s
          byName := t.byName.push s.name ⟨t.nextSymbol⟩ } := by
  simp only [bind, Edit.bind_eq_ok, Edit.refuse_eq_ok, Edit.get_eq_ok, Edit.demand_eq_ok,
    Edit.set_eq_ok, Edit.pure_eq_ok]
  constructor
  · rintro ⟨⟨⟩, _, ⟨hBound, rfl⟩, _, _, ⟨rfl, rfl⟩, next, _, ⟨hNext, rfl⟩, ⟨⟩, _, rfl, rfl, rfl⟩
    exact ⟨next, hBound, hNext, rfl, rfl⟩
  · rintro ⟨next, hBound, hNext, rfl, rfl⟩
    exact ⟨⟨⟩, t, ⟨hBound, rfl⟩, t, t, ⟨rfl, rfl⟩, next, t, ⟨hNext, rfl⟩, ⟨⟩, _, rfl, rfl, rfl⟩

theorem atomic_bind (g : BlockGraph) (s : Symbol) : Edit.Atomic (bind g s) := by
  apply (Edit.quiet_refuse _).bind
  intro _
  apply Edit.quiet_get.bind
  intro t
  apply (Edit.quiet_demand _ _).bind
  intro next
  exact Edit.atomic_set _ _

/-- A symbol is removed when it is there. It is taken out of the store and off the list of its
name. -/
theorem removeSymbol_eq_ok {id : SymbolId} {s : Symbol} :
    removeSymbol id t = .ok s t' ↔
      t.symbols.get? id.index = some s ∧
        t' = { t with
          symbols := t.symbols.erase id.index
          byName := t.byName.drop s.name id } := by
  simp only [removeSymbol, Edit.bind_eq_ok, Edit.get_eq_ok, Edit.demand_eq_ok, Edit.set_eq_ok,
    Edit.pure_eq_ok, symbol?]
  constructor
  · rintro ⟨_, _, ⟨rfl, rfl⟩, s, _, ⟨hs, rfl⟩, ⟨⟩, _, rfl, rfl, rfl⟩
    exact ⟨hs, rfl⟩
  · rintro ⟨hs, rfl⟩
    exact ⟨t, t, ⟨rfl, rfl⟩, s, t, ⟨hs, rfl⟩, ⟨⟩, _, rfl, rfl, rfl⟩

theorem atomic_removeSymbol (id : SymbolId) : Edit.Atomic (removeSymbol id) := by
  apply Edit.quiet_get.bind
  intro t
  apply (Edit.quiet_demand _ _).bind
  intro s
  exact Edit.atomic_set _ _

/-- Symbols never look at more of a graph than whether a block is live. -/
theorem WellFormed.of_graph {g' : BlockGraph} (h : t.WellFormed g)
    (hLive : ∀ i s id b, t.symbols.get? i = some s → s.referent = .block id →
      g.block? id = some b → ∃ b', g'.block? id = some b') : t.WellFormed g' where
  symbolIndex := h.symbolIndex
  referent i s id hs hBlock := by
    obtain ⟨b, hb⟩ := h.referent i s id hs hBlock
    exact hLive i s id b hs hBlock hb

/-- A table without symbols keeps every rule, next to any graph. -/
theorem sound_empty (g : BlockGraph) : ({} : SymbolTable).Sound g where
  wellFormed := {
    symbolIndex := fun i s h => by cases h
    referent := fun i s id h => by cases h }
  linked := linked_empty

/-- The new symbol has the highest id, so it stands at the end of the list of its name. -/
theorem symbolsNamed_insert {s : Symbol} (h : t.WellFormed g)
    (hSymbols : t'.symbols = t.symbols.insert t.nextSymbol s) (name : String) :
    t'.symbolsNamed name =
      if s.name = name then t.symbolsNamed name ++ [⟨t.nextSymbol⟩] else t.symbolsNamed name := by
  rw [symbolsNamed, symbolsNamed, hSymbols, Table.keysWhere_insert_of_bound s h.symbolIndex]
  by_cases hName : s.name = name <;> simp [hName]

/-- A symbol that was bound keeps the rules, since it does not dangle, and the lists, since it is
put on one. -/
theorem sound_bind {s : Symbol} {id : SymbolId} (h : t.Sound g)
    (hEdit : bind g s t = .ok id t') : t'.Sound g := by
  obtain ⟨next, hBound, hNext, -, rfl⟩ := bind_eq_ok.mp hEdit
  refine ⟨⟨Table.bound_insert h.wellFormed.symbolIndex (lt_of_nextIndex? hNext),
    fun i s' id' hs' hBlock => ?_⟩, fun name => ?_⟩
  · rcases Table.get?_insert_eq_some_iff.mp hs' with ⟨-, rfl⟩ | ⟨-, hOld⟩
    · exact dangling?_eq_none_iff.mp hBound id' hBlock
    · exact h.wellFormed.referent i s' id' hOld hBlock
  · rw [symbolsNamed_insert h.wellFormed rfl, NameIndex.under_push, h.linked]

/-- Taking a symbol off the list of a name gives the list without that symbol. The lists of
other names do not have it. -/
theorem symbolsNamed_erase {id : SymbolId} {s : Symbol}
    (hSymbols : t'.symbols = t.symbols.erase id.index)
    (hs : t.symbols.get? id.index = some s) (name : String) :
    t'.symbolsNamed name =
      if s.name = name then (t.symbolsNamed name).filter (· ≠ id) else t.symbolsNamed name := by
  obtain ⟨index⟩ := id
  rw [symbolsNamed, symbolsNamed, hSymbols]
  by_cases hName : s.name = name
  · rw [Table.keysWhere_erase, if_pos hName, List.filter_map]
    congr 2
    funext i
    simp
  · rw [Table.keysWhere_erase_of_false hs (decide_eq_false hName), if_neg hName]

/-- A symbol that was removed keeps the rules and the lists. No other symbol refers to a symbol. -/
theorem sound_removeSymbol {id : SymbolId} {s : Symbol} (h : t.Sound g)
    (hEdit : removeSymbol id t = .ok s t') : t'.Sound g := by
  obtain ⟨hs, rfl⟩ := removeSymbol_eq_ok.mp hEdit
  refine ⟨⟨Table.bound_erase h.wellFormed.symbolIndex, fun i s' id' hs' => ?_⟩, fun name => ?_⟩
  · exact h.wellFormed.referent i s' id' (Table.get?_erase_eq_some_iff.mp hs').2
  · rw [symbolsNamed_erase rfl hs, NameIndex.under_drop, h.linked]

/-- A symbol of a graph that moves to another tag follows it, under the same id and name. -/
theorem sound_retag {tag : GraphTag} (h : t.Sound g) :
    (t.retag g.tag tag).Sound (g.retag tag) := by
  refine ⟨⟨fun i s hs => ?_, fun i s id hs hBlock => ?_⟩, fun name => ?_⟩
  · obtain ⟨s, hOld, rfl⟩ := Table.get?_mapValues_eq_some_iff.mp hs
    exact h.wellFormed.symbolIndex i s hOld
  · obtain ⟨s, hOld, rfl⟩ := Table.get?_mapValues_eq_some_iff.mp hs
    cases hReferent : s.referent with
    | block old =>
        obtain ⟨b, hb⟩ := h.wellFormed.referent i s old hOld hReferent
        have hTag := (BlockGraph.block?_eq_some_iff.mp hb).1
        simp only [hReferent, hTag, if_true, Referent.block.injEq] at hBlock
        exact ⟨b, hBlock ▸ BlockGraph.block?_retag hb⟩
    | address a => simp [hReferent] at hBlock
    | value v => simp [hReferent] at hBlock
  · refine (h.linked name).trans ?_
    rw [symbolsNamed, symbolsNamed, retag, Table.keysWhere_mapValues]
    congr 2
    funext s
    split
    · split <;> rfl
    · rfl

end SymbolTable

namespace AddressSpace

variable {s s' : AddressSpace}

/-- A section is added when it has a name and ends within the addresses. It may lie over others. -/
theorem addSection_eq_ok {x : Section} {id : SectionId} :
    addSection x s = .ok id s' ↔
      ∃ next, x.Fits ∧ nextIndex? s.nextSection = some next ∧ id = ⟨s.nextSection⟩ ∧
        s' = { s with nextSection := next, sections := s.sections.insert s.nextSection x } := by
  simp only [addSection, Edit.bind_eq_ok, Edit.require_eq_ok, Edit.get_eq_ok, Edit.demand_eq_ok,
    Edit.set_eq_ok, Edit.pure_eq_ok]
  constructor
  · rintro ⟨⟨⟩, _, ⟨hFits, rfl⟩, _, _, ⟨rfl, rfl⟩, next, _, ⟨hNext, rfl⟩, ⟨⟩, _, rfl, rfl, rfl⟩
    exact ⟨next, Section.validate_eq_ok_iff.mp hFits, hNext, rfl, rfl⟩
  · rintro ⟨next, hFits, hNext, rfl, rfl⟩
    exact ⟨⟨⟩, s, ⟨Section.validate_eq_ok_iff.mpr hFits, rfl⟩, s, s, ⟨rfl, rfl⟩, next, s,
      ⟨hNext, rfl⟩, ⟨⟩, _, rfl, rfl, rfl⟩

theorem atomic_addSection (x : Section) : Edit.Atomic (addSection x) := by
  apply (Edit.quiet_require _ _).bind
  intro _
  apply Edit.quiet_get.bind
  intro s
  apply (Edit.quiet_demand _ _).bind
  intro next
  exact Edit.atomic_set _ _

/-- Removing a section always succeeds, and hands out the section if there was one. -/
theorem removeSection_eq_ok {id : SectionId} {x : Option Section} :
    removeSection id s = .ok x s' ↔
      x = s.section? id ∧ s' = { s with sections := s.sections.erase id.index } := by
  simp only [removeSection, Edit.bind_eq_ok, Edit.get_eq_ok, Edit.set_eq_ok, Edit.pure_eq_ok]
  constructor
  · rintro ⟨_, _, ⟨rfl, rfl⟩, ⟨⟩, _, rfl, rfl, rfl⟩
    exact ⟨rfl, rfl⟩
  · rintro ⟨rfl, rfl⟩
    exact ⟨s, s, ⟨rfl, rfl⟩, ⟨⟩, _, rfl, rfl, rfl⟩

theorem atomic_removeSection (id : SectionId) : Edit.Atomic (removeSection id) := by
  apply Edit.quiet_get.bind
  intro s
  exact Edit.atomic_set _ _

theorem wellFormed_empty : ({} : AddressSpace).WellFormed where
  sectionIndex i x h := by cases h
  sectionFits i x h := by cases h

/-- A section that was added fits, and the others do as before. -/
theorem wellFormed_addSection {x : Section} {id : SectionId} (h : s.WellFormed)
    (hEdit : addSection x s = .ok id s') : s'.WellFormed := by
  obtain ⟨next, hFits, hNext, -, rfl⟩ := addSection_eq_ok.mp hEdit
  refine ⟨Table.bound_insert h.sectionIndex (lt_of_nextIndex? hNext), fun i x' hx' => ?_⟩
  rcases Table.get?_insert_eq_some_iff.mp hx' with ⟨-, rfl⟩ | ⟨-, hOld⟩
  · exact hFits
  · exact h.sectionFits i x' hOld

/-- The rules of sections are about each of them alone, so one can be taken out. -/
theorem wellFormed_removeSection {id : SectionId} {x : Option Section} (h : s.WellFormed)
    (hEdit : removeSection id s = .ok x s') : s'.WellFormed := by
  obtain ⟨-, rfl⟩ := removeSection_eq_ok.mp hEdit
  exact ⟨Table.bound_erase h.sectionIndex,
    fun i x' hx' => h.sectionFits i x' (Table.get?_erase_eq_some_iff.mp hx').2⟩

end AddressSpace

end Disassembly
