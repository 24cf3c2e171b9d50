import Disassembly.Consistency
import Disassembly.Proofs.TableOrder

/-! The lists that are derived from a store, compared with the store. The list of a block holds
the ids of its stored edges and the list of a name those of its symbols, each id once and in
rising order. Relinking brings this about whatever was listed before. -/
namespace Disassembly

namespace Adjacency

/-- An id that is pushed comes last on its list, and the other lists stay. A list that was absent is
then the id alone. -/
theorem edgesAt_push (a : Adjacency) (i j : UInt32) (id : EdgeId) :
    (a.push i id).edgesAt j = if i = j then a.edgesAt j ++ [id] else a.edgesAt j := by
  by_cases h : i = j
  · subst h
    simp [push, edgesAt, Table.get?_insert]
  · simp [push, edgesAt, Table.get?_insert, h]

/-- An id that is dropped is taken off its list and off no other. Where there is no list there is
nothing to drop. -/
theorem edgesAt_drop (a : Adjacency) (i j : UInt32) (id : EdgeId) :
    (a.drop i id).edgesAt j =
      if i = j then (a.edgesAt j).filter (· ≠ id) else a.edgesAt j := by
  cases hList : a.get? i with
  | none =>
      by_cases h : i = j
      · subst h
        simp [drop, edgesAt, hList]
      · simp [drop, hList, h]
  | some ids =>
      by_cases h : i = j
      · subst h
        simp [drop, edgesAt, hList, Table.get?_insert]
      · simp [drop, edgesAt, hList, Table.get?_insert, h]

/-- A list that is erased is empty from then on. -/
theorem edgesAt_erase (a : Adjacency) (i j : UInt32) :
    edgesAt (a.erase i) j = if i = j then [] else a.edgesAt j := by
  by_cases h : i = j <;> simp [edgesAt, Table.get?_erase, h]

end Adjacency

namespace NameIndex

/-- An id that is pushed comes last under its name. -/
theorem under_push (n : NameIndex) (name other : String) (id : SymbolId) :
    (n.push name id).under other =
      if name = other then n.under other ++ [id] else n.under other := by
  by_cases h : name = other
  · subst h
    simp [push, under, Table.get?_insert]
  · simp [push, under, Table.get?_insert, h]

/-- A name whose list has become empty is taken away, which cannot be told from outside. -/
theorem under_drop (n : NameIndex) (name other : String) (id : SymbolId) :
    (n.drop name id).under other =
      if name = other then (n.under other).filter (· ≠ id) else n.under other := by
  cases hList : n.get? name with
  | none =>
      by_cases h : name = other
      · subst h
        simp [drop, under, hList]
      · simp [drop, hList, h]
  | some ids =>
      have hDrop : n.drop name id =
          if (ids.filter (· ≠ id)).isEmpty then n.erase name
          else n.insert name (ids.filter (· ≠ id)) := by
        simp only [drop, hList]
      rw [hDrop, under, under]
      split
      · rename_i hEmpty
        have hNil : ids.filter (· ≠ id) = [] := List.isEmpty_iff.mp hEmpty
        rw [Table.get?_erase]
        by_cases h : name = other
        · subst h
          rw [if_pos rfl, if_pos rfl, hList]
          exact hNil.symm
        · rw [if_neg h, if_neg h]
      · rw [Table.get?_insert]
        by_cases h : name = other
        · subst h
          rw [if_pos rfl, if_pos rfl, hList]
          rfl
        · rw [if_neg h, if_neg h]

end NameIndex

namespace BlockGraph

/-- The ids of the stored edges that pass a test, in rising order. -/
def edgesWhere (g : BlockGraph) (test : Edge → Bool) : List EdgeId :=
  (g.edges.keysWhere test).map EdgeId.mk

/-- Each list of edges is what the store gives for its block. -/
structure Linked (g : BlockGraph) : Prop where
  outgoing : ∀ i, g.outgoing.edgesAt i = g.edgesWhere (·.source.index = i)
  incoming : ∀ i, g.incoming.edgesAt i = g.edgesWhere (·.target.index = i)

/-- The ids are those of the stored edges that pass the test. -/
theorem mem_edgesWhere {g : BlockGraph} {test : Edge → Bool} {id : EdgeId} :
    id ∈ g.edgesWhere test ↔ ∃ e, g.edges.get? id.index = some e ∧ test e = true := by
  obtain ⟨index⟩ := id
  simp [edgesWhere, Table.mem_keysWhere]

theorem edgesWhere_congr {g g' : BlockGraph} (h : g.edges = g'.edges) (test : Edge → Bool) :
    g.edgesWhere test = g'.edgesWhere test := by
  rw [edgesWhere, edgesWhere, h]

/-- The ids are found by going through all edges in order, which is what relinking does. -/
theorem edgesWhere_eq_filter (g : BlockGraph) (test : Edge → Bool) :
    g.edgesWhere test = (g.edgeList.filter fun e => test e.2).map Prod.fst := by
  simp only [edgesWhere, edgeList, Table.keysWhere, List.filter_map, List.map_map]
  rfl

/-- One turn of relinking. -/
private def link (g : BlockGraph) (entry : EdgeId × Edge) : BlockGraph :=
  { g with
    outgoing := g.outgoing.push entry.2.source.index entry.1
    incoming := g.incoming.push entry.2.target.index entry.1 }

private theorem relink_eq_foldl (g : BlockGraph) : g.relink = g.edgeList.foldl link g.stored := rfl

/-- After some turns of relinking each list has grown by the edges of its block among those seen so
far. By induction on the edges, for any lists to start from. -/
private theorem foldl_link (entries : List (EdgeId × Edge)) (g : BlockGraph) :
    (entries.foldl link g).stored = g.stored ∧
      (∀ i, (entries.foldl link g).outgoing.edgesAt i = g.outgoing.edgesAt i ++
        (entries.filter fun e => e.2.source.index = i).map Prod.fst) ∧
      ∀ i, (entries.foldl link g).incoming.edgesAt i = g.incoming.edgesAt i ++
        (entries.filter fun e => e.2.target.index = i).map Prod.fst := by
  induction entries generalizing g with
  | nil => simp
  | cons entry rest ih =>
      obtain ⟨hStored, hOut, hIn⟩ := ih (g.link entry)
      refine ⟨hStored.trans rfl, fun i => ?_, fun i => ?_⟩
      · rw [List.foldl_cons, hOut, link, Adjacency.edgesAt_push]
        by_cases h : entry.2.source.index = i <;> simp [h]
      · rw [List.foldl_cons, hIn, link, Adjacency.edgesAt_push]
        by_cases h : entry.2.target.index = i <;> simp [h]

/-- Relinking changes derived lists and nothing else. -/
@[simp] theorem stored_relink (g : BlockGraph) : g.relink.stored = g.stored := by
  rw [relink_eq_foldl, (foldl_link _ _).1]
  rfl

theorem edges_relink (g : BlockGraph) : g.relink.edges = g.edges := by
  change g.relink.stored.edges = g.stored.edges
  rw [stored_relink]

/-- Whatever the lists were, after relinking they are what the store gives. -/
theorem linked_relink (g : BlockGraph) : g.relink.Linked where
  outgoing i := by
    rw [edgesWhere_congr (edges_relink g), edgesWhere_eq_filter, relink_eq_foldl,
      (foldl_link _ _).2.1]
    rfl
  incoming i := by
    rw [edgesWhere_congr (edges_relink g), edgesWhere_eq_filter, relink_eq_foldl,
      (foldl_link _ _).2.2]
    rfl

/-- A graph without edges has nothing to list. -/
theorem linked_empty (tag : GraphTag) : (empty tag).Linked := ⟨fun _ => rfl, fun _ => rfl⟩

end BlockGraph

namespace SymbolTable

/-- The ids of the stored symbols of a name, in rising order. -/
def symbolsNamed (t : SymbolTable) (name : String) : List SymbolId :=
  (t.symbols.keysWhere (·.name = name)).map SymbolId.mk

/-- Each list of symbols is what the store gives for its name. -/
def Linked (t : SymbolTable) : Prop := ∀ name, t.byName.under name = t.symbolsNamed name

theorem symbolsNamed_congr {t t' : SymbolTable} (h : t.symbols = t'.symbols) (name : String) :
    t.symbolsNamed name = t'.symbolsNamed name := by
  rw [symbolsNamed, symbolsNamed, h]

/-- The ids of a name are found by going through all symbols in order. -/
theorem symbolsNamed_eq_filter (t : SymbolTable) (name : String) :
    t.symbolsNamed name = (t.symbolList.filter fun s => s.2.name = name).map Prod.fst := by
  simp only [symbolsNamed, symbolList, Table.keysWhere, List.filter_map, List.map_map]
  rfl

/-- One turn of relinking. -/
private def link (t : SymbolTable) (entry : SymbolId × Symbol) : SymbolTable :=
  { t with byName := t.byName.push entry.2.name entry.1 }

private theorem relink_eq_foldl (t : SymbolTable) :
    t.relink = t.symbolList.foldl link t.stored := rfl

/-- After some turns of relinking the list of each name has grown by the symbols of that name among
those seen so far. -/
private theorem foldl_link (entries : List (SymbolId × Symbol)) (t : SymbolTable) :
    (entries.foldl link t).stored = t.stored ∧
      ∀ name, (entries.foldl link t).byName.under name = t.byName.under name ++
        (entries.filter fun s => s.2.name = name).map Prod.fst := by
  induction entries generalizing t with
  | nil => simp
  | cons entry rest ih =>
      obtain ⟨hStored, hNames⟩ := ih (t.link entry)
      refine ⟨hStored.trans rfl, fun name => ?_⟩
      rw [List.foldl_cons, hNames, link, NameIndex.under_push]
      by_cases h : entry.2.name = name <;> simp [h]

@[simp] theorem stored_relink (t : SymbolTable) : t.relink.stored = t.stored := by
  rw [relink_eq_foldl, (foldl_link _ _).1]
  rfl

theorem symbols_relink (t : SymbolTable) : t.relink.symbols = t.symbols := by
  change t.relink.stored.symbols = t.stored.symbols
  rw [stored_relink]

/-- In the same way for the lists of names. -/
theorem linked_relink (t : SymbolTable) : t.relink.Linked := by
  intro name
  rw [symbolsNamed_congr (symbols_relink t), symbolsNamed_eq_filter, relink_eq_foldl,
    (foldl_link _ _).2]
  rfl

theorem linked_empty : ({} : SymbolTable).Linked := fun _ => rfl

end SymbolTable

namespace Module

/-- Everything derived from the content of the module is what the content gives. -/
structure Linked (m : Module) : Prop where
  blocks : m.blocks.Linked
  symbols : m.symbols.Linked

@[simp] theorem stored_relink (m : Module) : m.relink.stored = m.stored := by
  simp [relink, stored]

/-- A module is relinked part by part, and what is derived is within the parts. -/
theorem linked_relink (m : Module) : m.relink.Linked :=
  ⟨m.blocks.linked_relink, m.symbols.linked_relink⟩

end Module

@[simp] theorem Program.stored_relink (p : Program) : p.relink.stored = p.stored := by
  simp [relink, stored, Function.comp_def]

end Disassembly
