import Disassembly.Proofs.ItemEdits
import Disassembly.Proofs.SameAnswers

/-! Modules as lists of what they hold, without counters and without what is derived. A change
appends one thing to one list, takes one out or puts one in the place of another, and every
other field of the listing stays. Two modules with one listing answer every question alike. -/
namespace Disassembly

namespace Table

variable {κ α : Type}

section

variable [Ord κ] [Std.TransOrd κ] [Std.LawfulEqOrd κ] [DecidableEq κ]

/-- A value that is put under a key of the list takes the place of the one under it, wherever that
is. -/
theorem insertEntry_of_mem {k : κ} {v old : α} {l : List (κ × α)}
    (hSorted : l.Pairwise fun a b => compare a.1 b.1 = .lt) (h : (k, old) ∈ l) :
    insertEntry k v l = l.map fun e => if e.1 = k then (k, v) else e := by
  have hSelf : compare k k = .eq := Std.ReflCmp.compare_self
  induction l with
  | nil => cases h
  | cons head rest ih =>
      obtain ⟨k₀, v₀⟩ := head
      obtain ⟨hHead, hRest⟩ := List.pairwise_cons.mp hSorted
      rcases List.mem_cons.mp h with hSame | hLater
      · cases hSame
        -- All other keys are behind this one.
        have hOthers : rest.map (fun e => if e.1 = k then (k, v) else e) = rest := by
          refine (List.map_congr_left fun e he => if_neg fun hKey => ?_).trans (List.map_id _)
          have hBehind := hHead e he
          rw [hKey, hSelf] at hBehind
          cases hBehind
        rw [insertEntry, hSelf, List.map_cons, if_pos rfl, hOthers]
      · have hBehind : compare k₀ k = .lt := hHead _ hLater
        have hKey : k₀ ≠ k := by
          rintro rfl
          rw [hSelf] at hBehind
          cases hBehind
        rw [insertEntry, Std.OrientedCmp.gt_of_lt hBehind, List.map_cons, if_neg hKey,
          ih hRest hLater]

/-- A value that is put under a key of the map takes the place of the one that was there. -/
theorem entries_insert_of_get? {t : Table κ α} {k : κ} {old : α} (v : α)
    (h : t.get? k = some old) :
    (t.insert k v).entries = t.entries.map fun e => if e.1 = k then (k, v) else e :=
  insertEntry_of_mem t.sorted (get?_eq_some_iff_mem.mp h)

end

section

/-! Entries under ids that stand for their keys. -/

variable {ι : Type} [DecidableEq ι] {mk : UInt32 → ι}

/-- Erasing a key takes the entry with the id of that key out of the list. -/
theorem listed_erase (hMk : Function.Injective mk) (t : Table UInt32 α) (k : UInt32) :
    ((t.erase k).entries.map fun e => (mk e.1, e.2)) =
      (t.entries.map fun e => (mk e.1, e.2)).filter (·.1 ≠ mk k) := by
  rw [entries_erase, List.filter_map]
  simp [Function.comp_def, hMk.eq_iff]

/-- A value under a key that is there changes the entry of that id in its place. -/
theorem listed_insert (hMk : Function.Injective mk) {t : Table UInt32 α} {k : UInt32} {old : α}
    (v : α) (h : t.get? k = some old) :
    ((t.insert k v).entries.map fun e => (mk e.1, e.2)) =
      (t.entries.map fun e => (mk e.1, e.2)).map fun e => if e.1 = mk k then (mk k, v) else e := by
  rw [entries_insert_of_get? v h, List.map_map, List.map_map]
  refine List.map_congr_left fun e _ => ?_
  by_cases hKey : e.1 = k
  · simp [hKey]
  · simp [hKey, hMk.eq_iff]

omit [DecidableEq ι] in
/-- A value under a key above all others comes last. -/
theorem listed_insert_of_bound (mk : UInt32 → ι) {t : Table UInt32 α} {next : UInt32} (v : α)
    (h : ∀ k v, t.get? k = some v → k < next) :
    ((t.insert next v).entries.map fun e => (mk e.1, e.2)) =
      (t.entries.map fun e => (mk e.1, e.2)) ++ [(mk next, v)] := by
  rw [entries_insert_of_bound v h, List.map_append]
  rfl

omit [DecidableEq ι] in
/-- A map can be told from what it lists. -/
theorem eq_of_listed_eq (hMk : Function.Injective mk) {s t : Table UInt32 α}
    (h : (s.entries.map fun e => (mk e.1, e.2)) = t.entries.map fun e => (mk e.1, e.2)) :
    s = t := by
  refine ext_entries (List.map_injective_iff.mpr (fun e e' hSame => ?_) h)
  obtain ⟨hKey, hValue⟩ := Prod.mk.inj hSame
  exact Prod.ext (hMk hKey) hValue

omit [DecidableEq ι] in
/-- An entry is listed under an id when the key of that id has the value. -/
theorem mem_listed (mk : UInt32 → ι) {t : Table UInt32 α} {x : ι × α} :
    x ∈ t.entries.map (fun e => (mk e.1, e.2)) ↔ ∃ k, mk k = x.1 ∧ t.get? k = some x.2 := by
  obtain ⟨id, v⟩ := x
  simp [get?_eq_some_iff_mem, and_comm]

end

end Table

theorem BlockGraph.idOf_injective (g : BlockGraph) : Function.Injective g.idOf :=
  fun _ _ h => congrArg BlockId.index h

theorem BlockGraph.idOf_index {g : BlockGraph} {id : BlockId} (h : id.graph = g.tag) :
    g.idOf id.index = id := by
  rw [idOf, ← h]

theorem EdgeId.mk_injective : Function.Injective EdgeId.mk := fun _ _ h => congrArg index h

theorem SymbolId.mk_injective : Function.Injective SymbolId.mk := fun _ _ h => congrArg index h

theorem SectionId.mk_injective : Function.Injective SectionId.mk := fun _ _ h => congrArg index h

section Members

/-! What is listed under an id is what is found under it. -/

/-- A block is listed under the very id that resolves to it, tag included. -/
theorem BlockGraph.mem_blockList {g : BlockGraph} {x : BlockId × Block} :
    x ∈ g.blockList ↔ g.block? x.1 = some x.2 := by
  refine (Table.mem_listed g.idOf).trans ⟨?_, fun h => ?_⟩
  · rintro ⟨i, hId, hLive⟩
    exact block?_eq_some_iff.mpr (hId ▸ ⟨rfl, hLive⟩)
  · obtain ⟨hOwn, hLive⟩ := block?_eq_some_iff.mp h
    exact ⟨x.1.index, idOf_index hOwn, hLive⟩

theorem BlockGraph.mem_edgeList {g : BlockGraph} {x : EdgeId × Edge} :
    x ∈ g.edgeList ↔ g.edge? x.1 = some x.2 := by
  refine (Table.mem_listed EdgeId.mk).trans ⟨?_, fun h => ⟨x.1.index, rfl, h⟩⟩
  rintro ⟨i, hId, hLive⟩
  exact hId ▸ hLive

theorem SymbolTable.mem_symbolList {t : SymbolTable} {x : SymbolId × Symbol} :
    x ∈ t.symbolList ↔ t.symbol? x.1 = some x.2 := by
  refine (Table.mem_listed SymbolId.mk).trans ⟨?_, fun h => ⟨x.1.index, rfl, h⟩⟩
  rintro ⟨i, hId, hLive⟩
  exact hId ▸ hLive

theorem AddressSpace.mem_sectionList {s : AddressSpace} {x : SectionId × Section} :
    x ∈ s.sectionList ↔ s.section? x.1 = some x.2 := by
  refine (Table.mem_listed SectionId.mk).trans ⟨?_, fun h => ⟨x.1.index, rfl, h⟩⟩
  rintro ⟨i, hId, hLive⟩
  exact hId ▸ hLive

/-! The same for any list, whatever it lists. -/

variable {ι α : Type} {l : List (ι × α)} {find : ι → Option α} {id : ι} {v : α}

/-- An id under which nothing is found is not listed. -/
theorem fst_ne_of_find_eq_none (hFind : ∀ {x : ι × α}, x ∈ l ↔ find x.1 = some x.2)
    (h : find id = none) : ∀ x ∈ l, x.1 ≠ id := by
  rintro x hx rfl
  cases h.symm.trans (hFind.mp hx)

/-- No id is listed with other content than what is found under it. -/
theorem snd_eq_of_find_eq_some (hFind : ∀ {x : ι × α}, x ∈ l ↔ find x.1 = some x.2)
    (h : find id = some v) : ∀ x ∈ l, x.1 = id → x.2 = v := by
  rintro x hx rfl
  exact Option.some.inj ((hFind.mp hx).symm.trans h)

/-- What is listed last is found under its id. -/
theorem find_eq_some_of_append (hFind : ∀ {x : ι × α}, x ∈ l ↔ find x.1 = some x.2)
    {prior : List (ι × α)} (h : l = prior ++ [(id, v)]) : find id = some v :=
  hFind (x := (id, v)) |>.mp (h ▸ List.mem_concat_self)

end Members

namespace Module

/-- The description under which the module would be made anew. -/
def description (m : Module) : Description where
  name := m.name
  binaryPath := some m.binaryPath
  architecture := m.architecture
  byteOrder := m.byteOrder
  fileFormat := m.fileFormat
  preferredAddress := m.preferredAddress
  rebaseDelta := m.rebaseDelta

/-- What a module holds, each kind of thing in the order in which it came. -/
structure Listing where
  id : ModuleId
  tag : GraphTag
  description : Description
  entryPoint : Option BlockId
  blocks : List (BlockId × Block)
  edges : List (EdgeId × Edge)
  symbols : List (SymbolId × Symbol)
  sections : List (SectionId × Section)
  auxData : AuxTables

def listing (m : Module) : Listing where
  id := m.id
  tag := m.graphTag
  description := m.description
  entryPoint := m.entryPoint
  blocks := m.blocks.blockList
  edges := m.blocks.edgeList
  symbols := m.symbols.symbolList
  sections := m.sections.sectionList
  auxData := m.auxData

namespace Listing

def addBlock (kind : BlockKind) (attributes : BlockAttributes) (id : BlockId) (l : Listing) :
    Listing :=
  match Block.ofAttributes kind attributes with
  | .ok b => { l with blocks := l.blocks ++ [(id, b)] }
  | .error _ => l

def setBlockAddress (id : BlockId) (address : Option UInt64) (l : Listing) : Listing :=
  { l with
    blocks := l.blocks.map fun e =>
      if e.1 = id then (id, (e.2.withAddress address).toOption.getD e.2) else e }

end Listing

/-- What a change with this answer does to the listing of a module. -/
def Operation.onListing : {α : Type} → Operation α → α → Listing → Listing
  | _, .addBlock kind attributes, id, l => l.addBlock kind attributes id
  | _, .addCodeBlock address size, id, l =>
    l.addBlock .code { address := some address, size := some size } id
  | _, .addDataBlock address size, id, l =>
    l.addBlock .data { address := some address, size := some size } id
  | _, .addProxyBlock, id, l => l.addBlock .proxy {} id
  | _, .addEdge source target label, id, l =>
    { l with edges := l.edges ++ [(id, ⟨source, target, label⟩)] }
  | _, .removeEdge id, _, l => { l with edges := l.edges.filter (·.1 ≠ id) }
  | _, .setBlockAddress id address, _, l => l.setBlockAddress id address
  | _, .removeBlock id, _, l => { l with blocks := l.blocks.filter (·.1 ≠ id) }
  | _, .setEntryPoint entry, _, l => { l with entryPoint := entry }
  | _, .addSymbol name referent, id, l =>
    { l with symbols := l.symbols ++ [(id, ⟨name, referent, false⟩)] }
  | _, .addSymbolAtEnd name block, id, l =>
    { l with symbols := l.symbols ++ [(id, ⟨name, .block block, true⟩)] }
  | _, .removeSymbol id, _, l => { l with symbols := l.symbols.filter (·.1 ≠ id) }
  | _, .addSection x, id, l => { l with sections := l.sections ++ [(id, x)] }
  | _, .removeSection id, _, l => { l with sections := l.sections.filter (·.1 ≠ id) }
  | _, .setAux name table, _, l => { l with auxData := l.auxData.insert name table }
  | _, .removeAux name, _, l => { l with auxData := l.auxData.erase name }

end Module

section Runs

variable {m m' : Module} {α : Type} {a : α}

theorem BlockGraph.blockList_setBlockAddress {g g' : BlockGraph} {id : BlockId}
    {address : Option UInt64} {u : Unit} (hEdit : setBlockAddress id address g = .ok u g') :
    ∃ b moved, g.block? id = some b ∧ b.withAddress address = .ok moved ∧
      g'.blockList = g.blockList.map fun e => if e.1 = id then (id, moved) else e := by
  obtain ⟨b, moved, hb, hMoved, -, rfl⟩ := setBlockAddress_eq_ok.mp hEdit
  obtain ⟨hOwn, hLive⟩ := block?_eq_some_iff.mp hb
  have hBlocks := Table.listed_insert g.idOf_injective moved hLive
  rw [idOf_index hOwn] at hBlocks
  exact ⟨b, moved, hb, hMoved, hBlocks⟩

namespace Module

/-- A new block comes last. This needs a well-formed module, where no block has an index that the
counter has yet to reach. -/
theorem listing_addBlock {kind : BlockKind} {attributes : BlockAttributes} {id : BlockId}
    (h : m.WellFormed) (hEdit : m.addBlock kind attributes = .ok id m') :
    m'.listing = m.listing.addBlock kind attributes id := by
  obtain ⟨g, hg, rfl⟩ := onBlocks_eq_ok.mp hEdit
  obtain ⟨b, next, hMade, -, rfl, rfl⟩ := BlockGraph.addBlock_eq_ok.mp hg
  have hBlocks := Table.listed_insert_of_bound m.blocks.idOf b h.blocks.blockIndex
  rw [Listing.addBlock, hMade]
  exact congrArg (fun blocks => { m.listing with blocks }) hBlocks

/-- A new edge comes last, with the ends and the label that were asked for. -/
theorem listing_addEdge {source target : BlockId} {label : EdgeLabel} {id : EdgeId}
    (h : m.WellFormed) (hEdit : m.addEdge source target label = .ok id m') :
    m'.listing =
      { m.listing with edges := m.listing.edges ++ [(id, ⟨source, target, label⟩)] } := by
  obtain ⟨g, hg, rfl⟩ := onBlocks_eq_ok.mp hEdit
  obtain ⟨b, next, -, -, -, -, rfl, rfl⟩ := BlockGraph.addEdge_eq_ok.mp hg
  have hEdges := Table.listed_insert_of_bound EdgeId.mk ⟨source, target, label⟩
    h.blocks.edgeIndex
  exact congrArg (fun edges => { m.listing with edges }) hEdges

/-- The edge that is handed out is the one that was stored. -/
theorem edge?_of_removeEdge {id : EdgeId} {e : Edge} (hEdit : m.removeEdge id = .ok e m') :
    m.blocks.edge? id = some e := by
  obtain ⟨g, hg, -⟩ := onBlocks_eq_ok.mp hEdit
  exact (BlockGraph.removeEdge_eq_ok.mp hg).1

/-- An edge is taken out of the list of edges. The other lists stay, that of blocks included. -/
theorem listing_removeEdge {id : EdgeId} {e : Edge} (hEdit : m.removeEdge id = .ok e m') :
    m'.listing = { m.listing with edges := m.listing.edges.filter (·.1 ≠ id) } := by
  obtain ⟨g, hg, rfl⟩ := onBlocks_eq_ok.mp hEdit
  obtain ⟨-, rfl⟩ := BlockGraph.removeEdge_eq_ok.mp hg
  have hEdges := Table.listed_erase EdgeId.mk_injective m.blocks.edges id.index
  exact congrArg (fun edges => { m.listing with edges }) hEdges

/-- A block that is moved changes in its place. -/
theorem listing_setBlockAddress {id : BlockId} {address : Option UInt64} {u : Unit}
    (hEdit : m.setBlockAddress id address = .ok u m') :
    m'.listing = m.listing.setBlockAddress id address := by
  obtain ⟨g, hg, rfl⟩ := onBlocks_eq_ok.mp hEdit
  obtain ⟨b, moved, hb, hMoved, hBlocks⟩ := BlockGraph.blockList_setBlockAddress hg
  obtain ⟨_, _, _, _, _, rfl⟩ := BlockGraph.setBlockAddress_eq_ok.mp hg
  refine congrArg (fun blocks => { m.listing with blocks }) (hBlocks.trans ?_)
  refine List.map_congr_left fun e he => if_ctx_congr Iff.rfl (fun hId => ?_) fun _ => rfl
  rw [snd_eq_of_find_eq_some BlockGraph.mem_blockList hb e he hId, hMoved]
  rfl

/-- A block is taken out of the list of blocks, and the edges stay as they are. -/
theorem listing_removeBlock {id : BlockId} {b : Block} (hEdit : m.removeBlock id = .ok b m') :
    m'.listing = { m.listing with blocks := m.listing.blocks.filter (·.1 ≠ id) } := by
  obtain ⟨-, g, hg, rfl⟩ := removeBlock_eq_ok.mp hEdit
  obtain ⟨hb, -, rfl⟩ := BlockGraph.removeBlock_eq_ok.mp hg
  have hBlocks := Table.listed_erase m.blocks.idOf_injective m.blocks.blocks id.index
  rw [BlockGraph.idOf_index (BlockGraph.block?_eq_some_iff.mp hb).1] at hBlocks
  exact congrArg (fun blocks => { m.listing with blocks }) hBlocks

/-- A new symbol comes last, whether it is at a block or at its end. -/
theorem listing_bindSymbol {s : Symbol} {id : SymbolId} (h : m.WellFormed)
    (hEdit : (do let m ← get; onSymbols (SymbolTable.bind m.blocks s) : Edit Module SymbolId) m
      = .ok id m') :
    m'.listing = { m.listing with symbols := m.listing.symbols ++ [(id, s)] } := by
  obtain ⟨t, ht, rfl⟩ := bindSymbol_eq_ok.mp hEdit
  obtain ⟨next, -, -, rfl, rfl⟩ := SymbolTable.bind_eq_ok.mp ht
  have hSymbols := Table.listed_insert_of_bound SymbolId.mk s h.symbols.symbolIndex
  exact congrArg (fun symbols => { m.listing with symbols }) hSymbols

theorem symbol?_of_removeSymbol {id : SymbolId} {s : Symbol}
    (hEdit : m.removeSymbol id = .ok s m') : m.symbols.symbol? id = some s := by
  obtain ⟨t, ht, -⟩ := onSymbols_eq_ok.mp hEdit
  exact (SymbolTable.removeSymbol_eq_ok.mp ht).1

/-- A symbol is taken out of the list of symbols. -/
theorem listing_removeSymbol {id : SymbolId} {s : Symbol} (hEdit : m.removeSymbol id = .ok s m') :
    m'.listing = { m.listing with symbols := m.listing.symbols.filter (·.1 ≠ id) } := by
  obtain ⟨t, ht, rfl⟩ := onSymbols_eq_ok.mp hEdit
  obtain ⟨-, rfl⟩ := SymbolTable.removeSymbol_eq_ok.mp ht
  have hSymbols := Table.listed_erase SymbolId.mk_injective m.symbols.symbols id.index
  exact congrArg (fun symbols => { m.listing with symbols }) hSymbols

/-- A new section comes last, wherever it lies in the address space. -/
theorem listing_addSection {x : Section} {id : SectionId} (h : m.WellFormed)
    (hEdit : m.addSection x = .ok id m') :
    m'.listing = { m.listing with sections := m.listing.sections ++ [(id, x)] } := by
  obtain ⟨s, hs, rfl⟩ := onSections_eq_ok.mp hEdit
  obtain ⟨next, -, -, rfl, rfl⟩ := AddressSpace.addSection_eq_ok.mp hs
  have hSections := Table.listed_insert_of_bound SectionId.mk x h.sections.sectionIndex
  exact congrArg (fun sections => { m.listing with sections }) hSections

/-- A section is taken out of the list of sections. If there is none with the id, the list stays. -/
theorem listing_removeSection {id : SectionId} {found : Option Section}
    (hEdit : m.removeSection id = .ok found m') :
    m'.listing = { m.listing with sections := m.listing.sections.filter (·.1 ≠ id) } := by
  obtain ⟨s, hs, rfl⟩ := onSections_eq_ok.mp hEdit
  obtain ⟨-, rfl⟩ := AddressSpace.removeSection_eq_ok.mp hs
  have hSections := Table.listed_erase SectionId.mk_injective m.sections.sections id.index
  exact congrArg (fun sections => { m.listing with sections }) hSections

/-- One step: a change that succeeds does to the listing what it is said to do. -/
theorem listing_run (h : m.WellFormed) (op : Operation α) (hEdit : op.run m = .ok a m') :
    m'.listing = op.onListing a m.listing := by
  cases op with
  | addBlock | addCodeBlock | addDataBlock | addProxyBlock => exact listing_addBlock h hEdit
  | addEdge => exact listing_addEdge h hEdit
  | removeEdge => exact listing_removeEdge hEdit
  | setBlockAddress => exact listing_setBlockAddress hEdit
  | removeBlock => exact listing_removeBlock hEdit
  | setEntryPoint =>
      obtain ⟨-, rfl⟩ := setEntryPoint_eq_ok.mp hEdit
      rfl
  | addSymbol | addSymbolAtEnd => exact listing_bindSymbol h hEdit
  | removeSymbol => exact listing_removeSymbol hEdit
  | addSection => exact listing_addSection h hEdit
  | removeSection => exact listing_removeSection hEdit
  | setAux =>
      obtain ⟨-, rfl⟩ := setAux_eq_ok.mp hEdit
      rfl
  | removeAux =>
      obtain ⟨-, rfl⟩ := removeAux_eq_ok.mp hEdit
      rfl

/-- Modules with one listing are equal but for their counters and derived lists. -/
theorem exists_of_listing_eq (h : m.listing = m'.listing) :
    ∃ nextBlock nextEdge nextSymbol nextSection outgoing incoming byName,
      m' = { m with
        blocks := { m.blocks with nextBlock, nextEdge, outgoing, incoming }
        symbols := { m.symbols with nextSymbol, byName }
        sections := { m.sections with nextSection } } := by
  obtain ⟨_, _, _, _, _, _, _, _, _, ⟨_, _, sections⟩, ⟨_, _, _, blocks, edges, _, _⟩,
    ⟨_, symbols, _⟩, _⟩ := m
  obtain ⟨_, _, _, _, _, _, _, _, _, ⟨_, _, sections'⟩, ⟨_, _, _, blocks', edges', _, _⟩,
    ⟨_, symbols', _⟩, _⟩ := m'
  simp only [listing, description, graphTag, Listing.mk.injEq, Description.mk.injEq,
    Option.some.injEq] at h
  obtain ⟨rfl, rfl, ⟨rfl, rfl, rfl, rfl, rfl, rfl, rfl⟩, rfl, hBlocks, hEdges, hSymbols,
    hSections, rfl⟩ := h
  cases Table.eq_of_listed_eq (BlockGraph.idOf_injective _) hBlocks
  cases Table.eq_of_listed_eq EdgeId.mk_injective hEdges
  cases Table.eq_of_listed_eq SymbolId.mk_injective hSymbols
  cases Table.eq_of_listed_eq SectionId.mk_injective hSections
  exact ⟨_, _, _, _, _, _, _, rfl⟩

/-- Modules with the same listing answer every question alike, even where they have given out
different numbers of ids. -/
theorem sameAnswers_of_listing_eq (hList : m.listing = m'.listing) (h : m.Linked)
    (h' : m'.Linked) : m.SameAnswers m' := by
  obtain ⟨_, _, _, _, _, _, _, rfl⟩ := exists_of_listing_eq hList
  exact sameAnswers_of_linked h h'

end Module

end Runs

end Disassembly
