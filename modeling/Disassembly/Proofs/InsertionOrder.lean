import Disassembly.Proofs.Enumeration
import Disassembly.Proofs.IdHistory

/-! The order in which things came. What is in a store is listed in the order of its indices, and
along any history of a module this is the order in which the indices were given out, behind what
was there at the start. -/
namespace Disassembly

namespace Table

variable {α : Type}

theorem mem_keys {t : Table UInt32 α} {k : UInt32} : k ∈ t.keys ↔ ∃ v, t.get? k = some v := by
  simp [keys, get?_eq_some_iff_mem]

/-- The keys of a map are listed in rising order, each once. -/
theorem keys_rising (t : Table UInt32 α) : t.keys.Pairwise fun k k' => k < k' :=
  List.pairwise_map.mpr (t.sorted.imp Std.compare_eq_lt.mp)

end Table

/-- Of two slots of one store the first is the lower one. Slots of different stores have no order. -/
def Slot.Before (s t : Slot) : Prop := s.store = t.store → s.index < t.index

namespace Module

variable {m start now : Module} {given taken : List ItemId}

/-- The indices that are in use in a store, in rising order. -/
def indices (m : Module) : Store → List UInt32
  | .blocks => m.blocks.blocks.keys
  | .edges => m.blocks.edges.keys
  | .symbols => m.symbols.symbols.keys
  | .sections => m.sections.sections.keys

/-- The slots that are in use in a store, in the order of their indices. -/
def slots (m : Module) (store : Store) : List Slot := (m.indices store).map (Slot.mk store)

/-- The indices of a store are those whose slots are in use. -/
theorem mem_indices {store : Store} {i : UInt32} :
    i ∈ m.indices store ↔ m.slot? ⟨store, i⟩ ≠ none := by
  cases store <;> simp [indices, slot?, Table.mem_keys, Option.ne_none_iff_exists']

/-- In the same way, the slots of a store are all those of it that are in use. -/
theorem mem_slots {store : Store} {slot : Slot} :
    slot ∈ m.slots store ↔ slot.store = store ∧ m.slot? slot ≠ none := by
  obtain ⟨store', i⟩ := slot
  simp only [slots, List.mem_map, mem_indices, Slot.mk.injEq]
  constructor
  · rintro ⟨i, hLive, rfl, rfl⟩
    exact ⟨rfl, hLive⟩
  · rintro ⟨rfl, hLive⟩
    exact ⟨i, hLive, rfl, rfl⟩

/-- Within a store the slots in use stand in the order of their indices. -/
theorem slots_rising (m : Module) (store : Store) :
    (m.slots store).Pairwise fun s t => s.index < t.index := by
  refine List.pairwise_map.mpr ?_
  cases store <;> exact Table.keys_rising _

/-- Symbols are listed in the order of their slots. -/
theorem slots_symbols (m : Module) :
    m.slots .symbols = m.symbols.symbolList.map fun x => (ItemId.ofSymbol x.1).slot := by
  simp [slots, indices, Table.keys, SymbolTable.symbolList, ItemId.slot]

theorem slots_sections (m : Module) :
    m.slots .sections = m.sections.sectionList.map fun x => (ItemId.ofSection x.1).slot := by
  simp [slots, indices, Table.keys, AddressSpace.sectionList, ItemId.slot]

/-- A change gives out one id at most. -/
theorem Operation.before_givenAt {α : Type} (op : Operation α) (m : Module) :
    ((op.givenAt m).map ItemId.slot).Pairwise Slot.Before := by
  unfold givenAt
  split
  · cases op <;> simp [gives]
  · exact .nil

/-- One id after the other: what is given out later in a history has the higher index. -/
theorem Run.given_rising (h : start.Sound) (run : start.Run given taken now) :
    (given.map ItemId.slot).Pairwise Slot.Before := by
  induction run with
  | start => exact .nil
  | @change α given taken now prior op ih =>
      obtain ⟨hNow, hPast⟩ := prior.evolves h
      rw [List.map_append, List.pairwise_append]
      refine ⟨ih, op.before_givenAt now, fun s hs t ht hStore => ?_⟩
      have hNext := ((hNow.changed op).2.fresh t ht).1
      rw [← hStore] at hNext
      exact UInt32.lt_of_lt_of_le (hPast.fresh s hs).2 hNext
  | reload _ _ _ _ ih => exact ih
  | move _ _ _ ih => exact ih

/-- What is in a store now was there at the start or was given out since, and it stands in the
order in which it came. -/
theorem Run.slots_sublist (h : start.Sound) (run : start.Run given taken now) (store : Store) :
    (now.slots store).Sublist (start.slots store ++ given.map ItemId.slot) := by
  obtain ⟨-, hPast⟩ := run.evolves h
  let came := (given.map ItemId.slot).filter fun slot => slot.store = store
  have hCame : ∀ slot ∈ came, slot ∈ given.map ItemId.slot ∧ slot.store = store :=
    fun slot hSlot => by simpa [came] using hSlot
  have hSubset : now.slots store ⊆ start.slots store ++ came := by
    intro slot hSlot
    obtain ⟨hStore, hLive⟩ := mem_slots.mp hSlot
    rcases hPast.old slot hLive with hOld | hNew
    · exact List.mem_append_left _ (mem_slots.mpr ⟨hStore, hOld⟩)
    · exact List.mem_append_right _ (List.mem_filter.mpr ⟨hNew, decide_eq_true hStore⟩)
  have hRising : (start.slots store ++ came).Pairwise fun s t => s.index < t.index := by
    rw [List.pairwise_append]
    refine ⟨start.slots_rising store, ?_, fun s hs t ht => ?_⟩
    · refine ((run.given_rising h).filter _).imp_of_mem fun {s t} hs ht hBefore => ?_
      exact hBefore ((hCame s hs).2.trans (hCame t ht).2.symm)
    · obtain ⟨hStore, hLive⟩ := mem_slots.mp hs
      obtain ⟨hGiven, hSame⟩ := hCame t ht
      obtain ⟨x, hx⟩ := Option.ne_none_iff_exists'.mp hLive
      have hLow := h.wellFormed.slot_lt hx
      rw [hStore, ← hSame] at hLow
      exact UInt32.lt_of_lt_of_le hLow (hPast.fresh t hGiven).1
  have hIrrefl := irrefl_rising Slot.index
  have hAntisymm := antisymm_rising Slot.index
  have hNow := now.slots_rising store
  -- Of two lists that rise, one that holds nothing else than the other is a part of it in order.
  have hSub := List.sublist_of_subperm_of_pairwise
    (List.subperm_of_subset hNow.nodup hSubset) hNow hRising
  exact hSub.trans (List.filter_sublist.append_left _)

end Module

end Disassembly
