import Disassembly.Proofs.ItemIds

/-! What each change of a module does to its slots. A change that succeeds either puts one thing
into the slot at a counter, or empties one slot, or leaves everything where it is. All that is
said of ids over time follows from these three. -/
namespace Disassembly

namespace Table

variable {κ α β : Type} [Ord κ] [Std.LawfulEqOrd κ] [DecidableEq κ]

theorem map_get?_insert [Std.TransOrd κ] (f : α → β) (t : Table κ α) (k k' : κ) (v : α) :
    ((t.insert k v).get? k').map f = if k' = k then some (f v) else (t.get? k').map f := by
  rw [get?_insert, apply_ite (Option.map f), Option.map_some]
  exact if_congr eq_comm rfl rfl

theorem map_get?_erase (f : α → β) (t : Table κ α) (k k' : κ) :
    ((t.erase k).get? k').map f = if k' = k then none else (t.get? k').map f := by
  rw [get?_erase, apply_ite (Option.map f), Option.map_none]
  exact if_congr eq_comm rfl rfl

end Table

namespace Module

variable {m m' : Module} {α : Type} {a : α}

/-- The ids that a change gives out with its answer. -/
def Operation.gives : {α : Type} → Operation α → α → List ItemId
  | _, .addBlock .., id => [.ofBlock id]
  | _, .addCodeBlock .., id => [.ofBlock id]
  | _, .addDataBlock .., id => [.ofBlock id]
  | _, .addProxyBlock, id => [.ofBlock id]
  | _, .addEdge .., id => [.ofEdge id]
  | _, .addSymbol .., id => [.ofSymbol id]
  | _, .addSymbolAtEnd .., id => [.ofSymbol id]
  | _, .addSection _, id => [.ofSection id]
  | _, _, _ => []

/-- The ids that a change takes back when it has this answer. A section that is not there can be
removed, and nothing is taken back then. -/
def Operation.takes : {α : Type} → Operation α → α → List ItemId
  | _, .removeBlock id, _ => [.ofBlock id]
  | _, .removeEdge id, _ => [.ofEdge id]
  | _, .removeSymbol id, _ => [.ofSymbol id]
  | _, .removeSection id, some _ => [.ofSection id]
  | _, _, _ => []

/-- The store to which a change adds something, if it does. -/
def Operation.store? : {α : Type} → Operation α → Option Store
  | _, .addBlock .. => some .blocks
  | _, .addCodeBlock .. => some .blocks
  | _, .addDataBlock .. => some .blocks
  | _, .addProxyBlock => some .blocks
  | _, .addEdge .. => some .edges
  | _, .addSymbol .. => some .symbols
  | _, .addSymbolAtEnd .. => some .symbols
  | _, .addSection _ => some .sections
  | _, _ => none

/-- What a change that succeeds does to the slots of a module. -/
inductive Change (m m' : Module) : List ItemId → List ItemId → Prop where
  /-- A new thing gets the index at its counter, which moves on. -/
  | give {id : ItemId} {x : Item} (tag : m'.graphTag = m.graphTag)
      (own : id.under m.graphTag = id) (index : id.slot.index = m.counter id.slot.store)
      (next : nextIndex? (m.counter id.slot.store) = some (m'.counter id.slot.store))
      (counter : ∀ store, store ≠ id.slot.store → m'.counter store = m.counter store)
      (slots : ∀ slot, m'.slot? slot = if slot = id.slot then some x else m.slot? slot) :
      Change m m' [id] []
  /-- What is taken back was there, and leaves the counters where they are. -/
  | take {id : ItemId} {x : Item} (tag : m'.graphTag = m.graphTag)
      (counter : ∀ store, m'.counter store = m.counter store)
      (live : m.slot? id.slot = some x)
      (slots : ∀ slot, m'.slot? slot = if slot = id.slot then none else m.slot? slot) :
      Change m m' [] [id]
  /-- Nothing comes or goes, and each thing stays what it is. -/
  | alter {f : Slot → Item → Item} (tag : m'.graphTag = m.graphTag)
      (counter : ∀ store, m'.counter store = m.counter store)
      (slots : ∀ slot, m'.slot? slot = (m.slot? slot).map (f slot))
      (same : ∀ slot x, m.slot? slot = some x → (f slot x).SameAs x) : Change m m' [] []

/-- No id is concerned at all. -/
theorem Change.none (hTag : m'.graphTag = m.graphTag)
    (hCounter : ∀ store, m'.counter store = m.counter store)
    (hSlots : ∀ slot, m'.slot? slot = m.slot? slot) : Change m m' [] [] := by
  refine .alter (f := fun _ x => x) hTag hCounter (fun slot => ?_) fun _ _ _ => .rfl
  rw [hSlots, Option.map_id']

/-- A new block of any kind gets the index at the counter of blocks. -/
theorem change_addBlock {kind : BlockKind} {attributes : BlockAttributes}
    {id : BlockId} (hEdit : m.addBlock kind attributes = .ok id m') :
    Change m m' [.ofBlock id] [] := by
  obtain ⟨g, hg, rfl⟩ := onBlocks_eq_ok.mp hEdit
  obtain ⟨b, next, -, hNext, rfl, rfl⟩ := BlockGraph.addBlock_eq_ok.mp hg
  refine Change.give (x := .ofBlock b) rfl rfl rfl hNext (fun store hStore => ?_) fun slot => ?_
  · cases store <;> first | rfl | exact absurd rfl hStore
  · obtain ⟨store, i⟩ := slot
    cases store <;> simp [slot?, ItemId.slot, Table.map_get?_insert, BlockGraph.idOf]

/-- A new edge gets the index at the counter of edges. Neither of its ends is touched. -/
theorem change_addEdge {source target : BlockId} {label : EdgeLabel}
    {id : EdgeId} (hEdit : m.addEdge source target label = .ok id m') :
    Change m m' [.ofEdge id] [] := by
  obtain ⟨g, hg, rfl⟩ := onBlocks_eq_ok.mp hEdit
  obtain ⟨b, next, -, -, -, hNext, rfl, rfl⟩ := BlockGraph.addEdge_eq_ok.mp hg
  refine Change.give (x := .ofEdge ⟨source, target, label⟩) rfl rfl rfl hNext
    (fun store hStore => ?_) fun slot => ?_
  · cases store <;> first | rfl | exact absurd rfl hStore
  · obtain ⟨store, i⟩ := slot
    cases store <;> simp [slot?, ItemId.slot, Table.map_get?_insert]

theorem change_removeEdge {id : EdgeId} {e : Edge}
    (hEdit : m.removeEdge id = .ok e m') : Change m m' [] [.ofEdge id] := by
  obtain ⟨g, hg, rfl⟩ := onBlocks_eq_ok.mp hEdit
  obtain ⟨he, rfl⟩ := BlockGraph.removeEdge_eq_ok.mp hg
  refine Change.take (x := .ofEdge e) rfl (fun store => ?_) ?_ fun slot => ?_
  · cases store <;> rfl
  · exact Option.map_eq_some_iff.mpr ⟨e, he, rfl⟩
  · obtain ⟨store, i⟩ := slot
    cases store <;> simp [slot?, ItemId.slot, Table.map_get?_erase]

/-- Removing a block empties its slot and no other one: no edge, symbol or entry point goes with
it. -/
theorem change_removeBlock {id : BlockId} {b : Block}
    (hEdit : m.removeBlock id = .ok b m') : Change m m' [] [.ofBlock id] := by
  obtain ⟨-, g, hg, rfl⟩ := removeBlock_eq_ok.mp hEdit
  obtain ⟨hb, -, rfl⟩ := BlockGraph.removeBlock_eq_ok.mp hg
  refine Change.take (x := .ofBlock b) rfl (fun store => ?_) ?_ fun slot => ?_
  · cases store <;> rfl
  · exact Option.map_eq_some_iff.mpr ⟨b, (BlockGraph.block?_eq_some_iff.mp hb).2, rfl⟩
  · obtain ⟨store, i⟩ := slot
    cases store <;> simp [slot?, ItemId.slot, Table.map_get?_erase]

/-- A block that takes an address keeps its kind, its size and its decode mode. -/
theorem sameAs_of_withAddress {b moved : Block} {address : Option UInt64}
    (h : b.withAddress address = .ok moved) : (Item.ofBlock moved).SameAs (.ofBlock b) := by
  cases b <;> cases h <;> exact .block rfl rfl rfl

/-- A block that moves is still what it was, and it is still in its slot. -/
theorem change_setBlockAddress {id : BlockId} {address : Option UInt64}
    {u : Unit} (hEdit : m.setBlockAddress id address = .ok u m') : Change m m' [] [] := by
  obtain ⟨g, hg, rfl⟩ := onBlocks_eq_ok.mp hEdit
  obtain ⟨b, moved, hb, hMoved, -, rfl⟩ := BlockGraph.setBlockAddress_eq_ok.mp hg
  have hLive := (BlockGraph.block?_eq_some_iff.mp hb).2
  refine .alter (f := fun slot x => if slot = ⟨.blocks, id.index⟩ then .ofBlock moved else x)
    rfl (fun store => ?_) (fun slot => ?_) fun slot x hx => ?_
  · cases store <;> rfl
  · obtain ⟨store, i⟩ := slot
    cases store with
    | blocks =>
        by_cases hIndex : i = id.index
        · simp [slot?, Table.map_get?_insert, hIndex, hLive]
        · simp [slot?, Table.map_get?_insert, hIndex, Function.comp_def]
    | edges | symbols | sections => simp [slot?, Function.comp_def]
  · split
    · rename_i hSlot
      subst hSlot
      cases (Option.map_eq_some_iff.mpr ⟨b, hLive, rfl⟩).symm.trans hx
      exact sameAs_of_withAddress hMoved
    · exact .rfl

/-- A new symbol gets the index at the counter of symbols. This covers symbols at a block and at its
end. -/
theorem change_bindSymbol {s : Symbol} {id : SymbolId}
    (hEdit : (do let m ← get; onSymbols (SymbolTable.bind m.blocks s) : Edit Module SymbolId) m
      = .ok id m') : Change m m' [.ofSymbol id] [] := by
  obtain ⟨t, ht, rfl⟩ := bindSymbol_eq_ok.mp hEdit
  obtain ⟨next, -, hNext, rfl, rfl⟩ := SymbolTable.bind_eq_ok.mp ht
  refine Change.give (x := .ofSymbol s) rfl rfl rfl hNext (fun store hStore => ?_) fun slot => ?_
  · cases store <;> first | rfl | exact absurd rfl hStore
  · obtain ⟨store, i⟩ := slot
    cases store <;> simp [slot?, ItemId.slot, Table.map_get?_insert]

theorem change_removeSymbol {id : SymbolId} {s : Symbol}
    (hEdit : m.removeSymbol id = .ok s m') : Change m m' [] [.ofSymbol id] := by
  obtain ⟨t, ht, rfl⟩ := onSymbols_eq_ok.mp hEdit
  obtain ⟨hs, rfl⟩ := SymbolTable.removeSymbol_eq_ok.mp ht
  refine Change.take (x := .ofSymbol s) rfl (fun store => ?_) ?_ fun slot => ?_
  · cases store <;> rfl
  · exact Option.map_eq_some_iff.mpr ⟨s, hs, rfl⟩
  · obtain ⟨store, i⟩ := slot
    cases store <;> simp [slot?, ItemId.slot, Table.map_get?_erase]

/-- A new section gets the index at the counter of sections. -/
theorem change_addSection {x : Section} {id : SectionId}
    (hEdit : m.addSection x = .ok id m') : Change m m' [.ofSection id] [] := by
  obtain ⟨s, hs, rfl⟩ := onSections_eq_ok.mp hEdit
  obtain ⟨next, -, hNext, rfl, rfl⟩ := AddressSpace.addSection_eq_ok.mp hs
  refine Change.give (x := .ofSection x) rfl rfl rfl hNext (fun store hStore => ?_) fun slot => ?_
  · cases store <;> first | rfl | exact absurd rfl hStore
  · obtain ⟨store, i⟩ := slot
    cases store <;> simp [slot?, ItemId.slot, Table.map_get?_insert]

/-- Removing a section that is not there changes nothing. -/
theorem change_removeSection {id : SectionId} {found : Option Section}
    (hEdit : m.removeSection id = .ok found m') :
    Change m m' [] ((Operation.removeSection id).takes found) := by
  obtain ⟨s, hs, rfl⟩ := onSections_eq_ok.mp hEdit
  obtain ⟨rfl, rfl⟩ := AddressSpace.removeSection_eq_ok.mp hs
  have hSlots : ∀ slot, slot? { m with sections := { m.sections with
      sections := m.sections.sections.erase id.index } } slot =
        if slot = (ItemId.ofSection id).slot then none else m.slot? slot := by
    rintro ⟨store, i⟩
    cases store <;> simp [slot?, ItemId.slot, Table.map_get?_erase]
  have hCounter : ∀ store, counter { m with sections := { m.sections with
      sections := m.sections.sections.erase id.index } } store = m.counter store := by
    intro store
    cases store <;> rfl
  cases hFound : m.sections.section? id with
  | some x =>
      exact Change.take (x := .ofSection x) rfl hCounter
        (Option.map_eq_some_iff.mpr ⟨x, hFound, rfl⟩) hSlots
  | none =>
      refine Change.none rfl hCounter fun slot => ?_
      rw [hSlots]
      split
      · rename_i hSlot
        rw [hSlot]
        exact (Option.map_eq_none_iff.mpr hFound).symm
      · rfl

/-- One step, told by the ids of its answer. -/
theorem change_run (op : Operation α) (hEdit : op.run m = .ok a m') :
    Change m m' (op.gives a) (op.takes a) := by
  cases op with
  | addBlock | addCodeBlock | addDataBlock | addProxyBlock => exact change_addBlock hEdit
  | addEdge => exact change_addEdge hEdit
  | removeEdge => exact change_removeEdge hEdit
  | setBlockAddress => exact change_setBlockAddress hEdit
  | removeBlock => exact change_removeBlock hEdit
  | setEntryPoint =>
      obtain ⟨-, rfl⟩ := setEntryPoint_eq_ok.mp hEdit
      exact Change.none rfl (fun _ => rfl) fun _ => rfl
  | addSymbol | addSymbolAtEnd => exact change_bindSymbol hEdit
  | removeSymbol => exact change_removeSymbol hEdit
  | addSection => exact change_addSection hEdit
  | removeSection => exact change_removeSection hEdit
  | setAux =>
      obtain ⟨-, rfl⟩ := setAux_eq_ok.mp hEdit
      exact Change.none rfl (fun _ => rfl) fun _ => rfl
  | removeAux =>
      obtain ⟨-, rfl⟩ := removeAux_eq_ok.mp hEdit
      exact Change.none rfl (fun _ => rfl) fun _ => rfl

/-- Nothing comes or goes, and each thing is in its slot, under the tag that the module then
has. -/
theorem evolves_altered {f : Slot → Item → Item}
    (hCounter : ∀ store, m'.counter store = m.counter store)
    (hSlots : ∀ slot, m'.slot? slot = (m.slot? slot).map (f slot))
    (hSame : ∀ slot x, m.slot? slot = some x → (f slot x).SameAs (x.under m'.graphTag)) :
    m.Evolves [] [] m' where
  counter store := hCounter store ▸ UInt32.le_refl _
  fresh := nofun
  distinct := .nil
  old slot hLive := by
    rw [hSlots] at hLive
    exact .inl fun hNone => hLive (by rw [hNone, Option.map_none])
  kept slot x hx _ := ⟨f slot x, by rw [hSlots, hx, Option.map_some], hSame slot x hx⟩
  gone := nofun

/-- One step. In a module that keeps its rules the slot at a counter is empty, so what is put
there replaces nothing. -/
theorem Change.evolves {given taken : List ItemId} (h : m.WellFormed)
    (hChange : Change m m' given taken) : m.Evolves given taken m' := by
  cases hChange with
  | @give id x hTag hOwn hIndex hNext hCounter hSlots =>
      exact {
        counter := fun store => by
          by_cases hStore : store = id.slot.store
          · exact hStore ▸ UInt32.le_of_lt (lt_of_nextIndex? hNext)
          · exact hCounter store hStore ▸ UInt32.le_refl _
        fresh := List.forall_mem_singleton.mpr
          ⟨hIndex ▸ UInt32.le_refl _, hIndex ▸ lt_of_nextIndex? hNext⟩
        distinct := List.nodup_singleton _
        old := fun slot hLive => by
          by_cases hSlot : slot = id.slot
          · exact .inr (List.mem_singleton.mpr hSlot)
          · exact .inl (by rwa [hSlots, if_neg hSlot] at hLive)
        kept := fun slot y hy _ => by
          have hSlot : slot ≠ id.slot := by
            rintro rfl
            exact UInt32.lt_irrefl _ (hIndex ▸ h.slot_lt hy)
          rw [hSlots, if_neg hSlot, hTag, h.item_under hy]
          exact ⟨y, hy, .rfl⟩
        gone := nofun }
  | @take id x hTag hCounter hTaken hSlots =>
      exact {
        counter := fun store => hCounter store ▸ UInt32.le_refl _
        fresh := nofun
        distinct := .nil
        old := fun slot hLive => by
          by_cases hSlot : slot = id.slot
          · exact absurd (by rw [hSlots, if_pos hSlot]) hLive
          · exact .inl (by rwa [hSlots, if_neg hSlot] at hLive)
        kept := fun slot y hy hApart => by
          have hSlot : slot ≠ id.slot := fun hSlot => hApart (List.mem_singleton.mpr hSlot)
          rw [hSlots, if_neg hSlot, hTag, h.item_under hy]
          exact ⟨y, hy, .rfl⟩
        gone := List.forall_mem_singleton.mpr
          ⟨hCounter _ ▸ h.slot_lt hTaken, by rw [hSlots, if_pos rfl]⟩ }
  | alter hTag hCounter hSlots hSame =>
      refine evolves_altered hCounter hSlots fun slot x hx => ?_
      rw [hTag, h.item_under hx]
      exact hSame slot x hx

/-- An id that is given out denotes something at once. -/
theorem Change.denotes {given taken : List ItemId} (hChange : Change m m' given taken) :
    ∀ id ∈ given, ∃ x, m'.item? id = some x := by
  cases hChange with
  | @give id x hTag hOwn _ _ _ hSlots =>
      rw [List.forall_mem_singleton, ← hOwn, ← hTag, item?_under, hSlots, if_pos rfl]
      exact ⟨x, rfl⟩
  | take | alter => nofun

/-- An id that is given out has denoted nothing before. -/
theorem Change.fresh {given taken : List ItemId} (h : m.WellFormed)
    (hChange : Change m m' given taken) : ∀ id ∈ given, m.item? id = Option.none := by
  cases hChange with
  | @give id x _ hOwn hIndex _ _ _ =>
      rw [List.forall_mem_singleton, ← hOwn, item?_under]
      exact h.slot?_eq_none (hIndex ▸ UInt32.le_refl _)
  | take | alter => nofun

/-- A change that adds to a store gives out a slot of that store when it succeeds. -/
theorem exists_gives_of_store? {op : Operation α} {store : Store} (h : op.store? = some store)
    (a : α) : ∃ slot ∈ (op.gives a).map ItemId.slot, slot.store = store := by
  cases op <;> cases h <;> exact ⟨_, List.mem_singleton_self _, rfl⟩

/-- A counter at its end stays there, and nothing is added to its store any more. -/
theorem run_of_exhausted (h : m.WellFormed) {op : Operation α} {store : Store}
    (hStore : op.store? = some store) (hFull : m.counter store = 0xffffffff) :
    ∃ e, op.run m = .error e m := by
  cases hRun : op.run m with
  | ok a m' =>
      -- The slot would lie between two values of the counter, and none is behind the last one.
      obtain ⟨slot, hGiven, rfl⟩ := exists_gives_of_store? hStore a
      obtain ⟨hLow, hHigh⟩ := ((change_run op hRun).evolves h).fresh slot hGiven
      rw [hFull] at hLow
      have hBeyond := UInt32.lt_iff_toNat_lt.mp (UInt32.lt_of_le_of_lt hLow hHigh)
      have hEnd : (m'.counter slot.store).toNat < UInt32.size := UInt32.toNat_lt _
      exact absurd hBeyond (Nat.not_lt.mpr (Nat.le_of_lt_succ hEnd))
  | error e m' => exact ⟨e, by rw [atomic_run op m e m' hRun]⟩

end Module

end Disassembly
