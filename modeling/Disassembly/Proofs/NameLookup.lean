import Disassembly.Proofs.EdgeWalks
import Disassembly.Proofs.InsertionOrder

/-! Symbols found by name. The lists of names are kept up to date by one change after the other and
rebuilt on loading; either way a lookup finds what a scan of all symbols does, in the order in
which the symbols were added. -/
namespace Disassembly.Module

variable {m start now : Module} {given taken : List ItemId}

theorem Sound.enumerates_find (h : m.Sound) (name : String) :
    Enumerates m.symbols.symbol? SymbolId.index (fun s => s.name = name)
      (m.symbols.find name) := by
  rw [find_eq h]
  exact (m.symbols.enumerates_symbolList fun s => s.name = name).congr fun s => decide_eq_true_iff

/-- A lookup that wants one symbol has an answer when the list of the name has one entry. -/
theorem findSingleSymbol_eq_some_iff {name : String} {x : SymbolId × Symbol} :
    m.findSingleSymbol name = some x ↔ m.symbols.find name = [x] := by
  unfold findSingleSymbol
  match m.symbols.find name with
  | [] => simp
  | [only] => simp
  | first :: second :: rest => simp

/-- The symbols of a name are found in the order in which they were added, behind those that were
there at the start. -/
theorem Run.find_sublist (h : start.Sound) (run : start.Run given taken now) (name : String) :
    ((now.symbols.find name).map fun x => (ItemId.ofSymbol x.1).slot).Sublist
      (start.slots .symbols ++ given.map ItemId.slot) := by
  refine List.Sublist.trans ?_ (run.slots_sublist h .symbols)
  rw [find_eq (run.evolves h).1, slots_symbols]
  exact List.filter_sublist.map _

/-- The lists of names agree with the store of symbols. A lookup finds exactly the live symbols of
the name, each once and in the order of the ids, and nothing once all of them are gone; the
lookup of a single symbol has an answer exactly if one live symbol has the name, and gives that
one. Relinking succeeds and changes no answer. Along any history the order is that in which the
symbols were added. -/
theorem names_agree_with_store :
    (∀ {m : Module}, m.Reachable →
      (∀ name, Enumerates m.symbols.symbol? SymbolId.index (fun s => s.name = name)
          (m.symbols.find name) ∧
        (m.symbols.find name = [] ↔ ∀ id s, m.symbols.symbol? id = some s → s.name ≠ name) ∧
        ∀ x, m.findSingleSymbol name = some x ↔
          (m.symbols.symbol? x.1 = some x.2 ∧ x.2.name = name) ∧
            ∀ id s, m.symbols.symbol? id = some s → s.name = name → id = x.1) ∧
      m.check = .ok () ∧ m.SameAnswers m.relink) ∧
    ∀ {start now : Module} {given taken : List ItemId}, start.Reachable →
      start.Run given taken now → ∀ name,
        ((now.symbols.find name).map fun x => (ItemId.ofSymbol x.1).slot).Sublist
          (start.slots .symbols ++ given.map ItemId.slot) := by
  refine ⟨fun {m} h => ⟨fun name => ?_, h.sound.relinks⟩,
    fun hStart run name => run.find_sublist hStart.sound name⟩
  have hFound := h.sound.enumerates_find name
  refine ⟨hFound, hFound.eq_nil_iff, fun x => ?_⟩
  rw [findSingleSymbol_eq_some_iff]
  exact hFound.eq_singleton_iff

/-- Two more symbols get the name of the first one, and the earlier of them is removed. The others
are found in their order, so none of them is the only one. -/
theorem names_agree_with_store_namesakes :
    let start := recursion default default
    let first : SymbolId × Symbol := (⟨0⟩, ⟨"loop", .block ⟨default, 0⟩, false⟩)
    let third : SymbolId × Symbol := (⟨2⟩, ⟨"loop", .value 2, false⟩)
    let now := (Operation.removeSymbol ⟨1⟩).run.after
      ((Operation.addSymbol "loop" (.value 2)).run.after
        ((Operation.addSymbol "loop" (.value 1)).run.after start))
    now.Reachable ∧ start.Run [.ofSymbol ⟨1⟩, .ofSymbol ⟨2⟩] [.ofSymbol ⟨1⟩] now ∧
      now.symbols.find "loop" = [first, third] ∧
      Enumerates now.symbols.symbol? SymbolId.index (fun s => s.name = "loop") [first, third] ∧
      now.findSingleSymbol "loop" = none ∧ now.symbols.find "main" = [] ∧
      [(ItemId.ofSymbol ⟨0⟩).slot, (ItemId.ofSymbol ⟨2⟩).slot].Sublist
        (start.slots .symbols ++ [(ItemId.ofSymbol ⟨1⟩).slot, (ItemId.ofSymbol ⟨2⟩).slot]) ∧
      now.check = .ok () := by
  intro start first third now
  have hStart : start.Reachable := reachable_recursion default default
  have hNow : now.Reachable :=
    ((hStart.operation (.addSymbol "loop" (.value 1))).operation
      (.addSymbol "loop" (.value 2))).operation (.removeSymbol ⟨1⟩)
  have hRun : start.Run [.ofSymbol ⟨1⟩, .ofSymbol ⟨2⟩] [.ofSymbol ⟨1⟩] now :=
    ((Run.start.change (.addSymbol "loop" (.value 1))).change
      (.addSymbol "loop" (.value 2))).change (.removeSymbol ⟨1⟩)
  have hFind : now.symbols.find "loop" = [first, third] := rfl
  have hNone : now.symbols.find "main" = [] := rfl
  obtain ⟨hStore, hOrder⟩ := names_agree_with_store
  obtain ⟨hNames, hCheck, -⟩ := hStore hNow
  obtain ⟨hLoop, -, hSingle⟩ := hNames "loop"
  have hNotSingle : now.findSingleSymbol "loop" = none := by
    refine Option.eq_none_iff_forall_ne_some.mpr fun x hx => ?_
    obtain ⟨-, hOnly⟩ := (hSingle x).mp hx
    have hFirst := hOnly ⟨0⟩ _ rfl rfl
    have hThird := hOnly ⟨2⟩ _ rfl rfl
    cases hFirst.trans hThird.symm
  have hSlots := hOrder hStart hRun "loop"
  rw [hFind] at hLoop hSlots
  exact ⟨hNow, hRun, hFind, hLoop, hNotSingle, hNone, hSlots, hCheck⟩

end Disassembly.Module
