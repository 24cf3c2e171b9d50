import Disassembly.Proofs.ListedAnswers

/-! What a change of a module leaves alone. Each change names one part of the module: a thing under
an id, the entry point or a table. Everything else keeps its id, its content and its place, and
so do the answers that do not meet the named part. -/
namespace Disassembly

section Filters

variable {β : Type} {l l' : List β} {keep test : β → Bool}

/-- What passes the filter is in both lists or in neither. -/
theorem mem_iff_of_filter_eq (h : l'.filter keep = l.filter keep) {x : β} (hx : keep x = true) :
    x ∈ l' ↔ x ∈ l := by
  have hMem : x ∈ l'.filter keep ↔ x ∈ l.filter keep := by rw [h]
  simpa [List.mem_filter, hx] using hMem

/-- A test that only kept entries pass finds the same in both lists. -/
theorem filter_eq_of_filter_eq (h : l'.filter keep = l.filter keep)
    (hl : ∀ x, x ∈ l ∨ x ∈ l' → test x = true → keep x = true) :
    l'.filter test = l.filter test := by
  have hTwice : ∀ k : List β, (∀ x ∈ k, test x = true → keep x = true) →
      k.filter test = (k.filter keep).filter test := by
    intro k hk
    rw [List.filter_filter]
    refine List.filter_congr fun x hx => ?_
    cases hTest : test x with
    | false => rfl
    | true => rw [hk x hx hTest]; rfl
  rw [hTwice l' fun x hx => hl x (.inr hx), h, ← hTwice l fun x hx => hl x (.inl hx)]

/-- Lists that agree in what is kept agree in it after any further test. -/
theorem filter_filter_congr (h : l'.filter keep = l.filter keep) (test : β → Bool) :
    (l'.filter test).filter keep = (l.filter test).filter keep := by
  rw [List.filter_comm, h, List.filter_comm]

variable {ι α : Type}

section

variable [DecidableEq ι] (entries : List (ι × α)) (id : ι)

theorem filter_ne_append (v : α) :
    (entries ++ [(id, v)]).filter (·.1 ≠ id) = entries.filter (·.1 ≠ id) := by
  simp

theorem filter_ne_filter_ne :
    (entries.filter (·.1 ≠ id)).filter (·.1 ≠ id) = entries.filter (·.1 ≠ id) := by
  simp

/-- A change of the content under one id is not seen where that id is left out. -/
theorem filter_ne_map (f : ι × α → α) :
    (entries.map fun e => if e.1 = id then (id, f e) else e).filter (·.1 ≠ id) =
      entries.filter (·.1 ≠ id) := by
  induction entries with
  | nil => rfl
  | cons head rest ih => by_cases hHead : head.1 = id <;> simp_all

end

variable {entries : List (ι × α)} {id : ι}

/-- Under an id that was not taken there is only what was put there. -/
theorem snd_eq_of_fresh {v : α} (h : ∀ x ∈ entries, x.1 ≠ id) (x : ι × α)
    (hx : x ∈ entries ∨ x ∈ entries ++ [(id, v)]) (hId : x.1 = id) : x.2 = v := by
  have hOld : x ∉ entries := fun hOld => h x hOld hId
  simp only [List.mem_append, List.mem_singleton, hOld, false_or] at hx
  rw [hx]

theorem snd_eq_of_mem {v : α} {keep : ι × α → Bool} (h : ∀ x ∈ entries, x.1 = id → x.2 = v)
    (x : ι × α) (hx : x ∈ entries ∨ x ∈ entries.filter keep) (hId : x.1 = id) : x.2 = v :=
  h x (hx.elim (·) fun hx => (List.mem_filter.mp hx).1) hId

end Filters

namespace Module

/-- A part of a module that a change can name. Edges and symbols come with their content, which
says in which answers they stand. -/
inductive Part where
  | ofBlock (id : BlockId)
  | ofEdge (id : EdgeId) (e : Edge)
  | ofSymbol (id : SymbolId) (s : Symbol)
  | ofSection (id : SectionId)
  | entryPoint
  | auxTable (name : String)

namespace Part

def item? : Part → Option ItemId
  | ofBlock id => some (.ofBlock id)
  | ofEdge id _ => some (.ofEdge id)
  | ofSymbol id _ => some (.ofSymbol id)
  | ofSection id => some (.ofSection id)
  | _ => none

/-- The part is not the thing of this id. -/
def spares (part : Part) (id : ItemId) : Bool := part.item? ≠ some id

/-- The part is the block itself or an edge that has it at the given end. -/
def Meets (endOf : Edge → BlockId) (id : BlockId) : Part → Prop
  | ofBlock other => other = id
  | ofEdge _ e => endOf e = id
  | _ => False

def HasName (name : String) : Part → Prop
  | ofSymbol _ s => s.name = name
  | _ => False

def RefersTo (id : BlockId) : Part → Prop
  | ofSymbol _ s => s.referent = .block id
  | _ => False

end Part

/-- The part that a change with this answer names. -/
def Operation.part : {α : Type} → Operation α → α → Part
  | _, .addBlock .., id => .ofBlock id
  | _, .addCodeBlock .., id => .ofBlock id
  | _, .addDataBlock .., id => .ofBlock id
  | _, .addProxyBlock, id => .ofBlock id
  | _, .addEdge source target label, id => .ofEdge id ⟨source, target, label⟩
  | _, .removeEdge id, e => .ofEdge id e
  | _, .setBlockAddress id _, _ => .ofBlock id
  | _, .removeBlock id, _ => .ofBlock id
  | _, .setEntryPoint _, _ => .entryPoint
  | _, .addSymbol name referent, id => .ofSymbol id ⟨name, referent, false⟩
  | _, .addSymbolAtEnd name block, id => .ofSymbol id ⟨name, .block block, true⟩
  | _, .removeSymbol id, s => .ofSymbol id s
  | _, .addSection _, id => .ofSection id
  | _, .removeSection id, _ => .ofSection id
  | _, .setAux name _, _ => .auxTable name
  | _, .removeAux name, _ => .auxTable name

/-- The listings agree in everything but one part, and if that is an edge or a symbol, then it is
listed with the content that it was named with. -/
structure Listing.SameBut (part : Part) (l l' : Listing) : Prop where
  id : l'.id = l.id := by rfl
  tag : l'.tag = l.tag := by rfl
  description : l'.description = l.description := by rfl
  entryPoint : part ≠ .entryPoint → l'.entryPoint = l.entryPoint := by exact fun _ => rfl
  auxTable : ∀ name, part ≠ .auxTable name → l'.auxData.get? name = l.auxData.get? name := by
    exact fun _ _ => rfl
  blocks : l'.blocks.filter (fun x => part.spares (.ofBlock x.1)) =
    l.blocks.filter fun x => part.spares (.ofBlock x.1) := by rfl
  edges : l'.edges.filter (fun x => part.spares (.ofEdge x.1)) =
    l.edges.filter fun x => part.spares (.ofEdge x.1) := by rfl
  symbols : l'.symbols.filter (fun x => part.spares (.ofSymbol x.1)) =
    l.symbols.filter fun x => part.spares (.ofSymbol x.1) := by rfl
  sections : l'.sections.filter (fun x => part.spares (.ofSection x.1)) =
    l.sections.filter fun x => part.spares (.ofSection x.1) := by rfl
  edge : ∀ x, x ∈ l.edges ∨ x ∈ l'.edges → part.item? = some (.ofEdge x.1) →
    part = .ofEdge x.1 x.2 := by nofun
  symbol : ∀ x, x ∈ l.symbols ∨ x ∈ l'.symbols → part.item? = some (.ofSymbol x.1) →
    part = .ofSymbol x.1 x.2 := by nofun

/-- The modules agree in everything but one part. What is listed beside the part is the same in
the same order, and every question that does not meet the part has the same answer. -/
structure SameBut (part : Part) (m m' : Module) : Prop where
  id : m'.id = m.id
  tag : m'.graphTag = m.graphTag
  description : m'.description = m.description
  entryPoint : part ≠ .entryPoint → m'.entryPoint = m.entryPoint
  auxTable : ∀ name, part ≠ .auxTable name → m'.auxData.get? name = m.auxData.get? name
  blocks : m'.blocks.blockList.filter (fun x => part.spares (.ofBlock x.1)) =
    m.blocks.blockList.filter fun x => part.spares (.ofBlock x.1)
  edges : m'.blocks.edgeList.filter (fun x => part.spares (.ofEdge x.1)) =
    m.blocks.edgeList.filter fun x => part.spares (.ofEdge x.1)
  symbols : m'.symbols.symbolList.filter (fun x => part.spares (.ofSymbol x.1)) =
    m.symbols.symbolList.filter fun x => part.spares (.ofSymbol x.1)
  sections : m'.sections.sectionList.filter (fun x => part.spares (.ofSection x.1)) =
    m.sections.sectionList.filter fun x => part.spares (.ofSection x.1)
  item : ∀ id, part.spares id = true → m'.item? id = m.item? id
  blocksAt : ∀ a, (m'.blocks.blocksAt a).filter (fun x => part.spares (.ofBlock x.1)) =
    (m.blocks.blocksAt a).filter fun x => part.spares (.ofBlock x.1)
  sectionsOn : ∀ a, (m'.sections.sectionsOn a).filter (fun x => part.spares (.ofSection x.1)) =
    (m.sections.sectionsOn a).filter fun x => part.spares (.ofSection x.1)
  sectionsNamed : ∀ name,
    (m'.sections.sectionsNamed name).filter (fun x => part.spares (.ofSection x.1)) =
      (m.sections.sectionsNamed name).filter fun x => part.spares (.ofSection x.1)
  leaving : ∀ id kind, ¬part.Meets Edge.source id → m'.leaving id kind = m.leaving id kind
  entering : ∀ id kind, ¬part.Meets Edge.target id → m'.entering id kind = m.entering id kind
  named : ∀ name, ¬part.HasName name → m'.symbols.find name = m.symbols.find name
  referringTo : ∀ id, ¬part.RefersTo id → m'.symbols.referringTo id = m.symbols.referringTo id

variable {m m' : Module} {part : Part}

namespace Listing

/-- What is found under a kept id is the same in both lists, if each list has all that can be
found. -/
theorem find_eq_of_filter_eq {ι α : Type} {l l' : List (ι × α)} {find find' : ι → Option α}
    {keep : ι × α → Bool} {id : ι} (h : l'.filter keep = l.filter keep)
    (hFind : ∀ {x : ι × α}, x ∈ l ↔ find x.1 = some x.2)
    (hFind' : ∀ {x : ι × α}, x ∈ l' ↔ find' x.1 = some x.2) (hKeep : ∀ v, keep (id, v) = true) :
    find' id = find id := by
  refine Option.ext fun v => ?_
  rw [← hFind (x := (id, v)), ← hFind' (x := (id, v))]
  exact mem_iff_of_filter_eq h (hKeep v)

/-- A thing that is not the named one is found as it was. -/
theorem SameBut.item (h : m.listing.SameBut part m'.listing) {id : ItemId}
    (hId : part.spares id = true) : m'.item? id = m.item? id := by
  cases id with
  | ofBlock id =>
      exact congrArg (Option.map _) (find_eq_of_filter_eq h.blocks BlockGraph.mem_blockList
        BlockGraph.mem_blockList fun _ => hId)
  | ofEdge id =>
      exact congrArg (Option.map _) (find_eq_of_filter_eq h.edges BlockGraph.mem_edgeList
        BlockGraph.mem_edgeList fun _ => hId)
  | ofSymbol id =>
      exact congrArg (Option.map _) (find_eq_of_filter_eq h.symbols SymbolTable.mem_symbolList
        SymbolTable.mem_symbolList fun _ => hId)
  | ofSection id =>
      exact congrArg (Option.map _) (find_eq_of_filter_eq h.sections AddressSpace.mem_sectionList
        AddressSpace.mem_sectionList fun _ => hId)

/-- A block that is not the named one resolves after the change if it did before. -/
theorem SameBut.containsBlock (h : m.listing.SameBut part m'.listing) {id : BlockId}
    (hId : part.spares (.ofBlock id) = true) :
    m'.blocks.containsBlock id = m.blocks.containsBlock id := by
  have hItem : (m'.item? (.ofBlock id)).isSome = (m.item? (.ofBlock id)).isSome := by
    rw [h.item hId]
  simpa [item?, BlockGraph.containsBlock] using hItem

/-- The answer about a block is the same unless the part is the block or an edge at that end of
it. -/
theorem SameBut.edgesBy (h : m.listing.SameBut part m'.listing) {endOf : Edge → BlockId}
    {id : BlockId} (kind : Option EdgeKind) (hId : ¬part.Meets endOf id) :
    m'.blocks.edgesBy endOf id kind = m.blocks.edgesBy endOf id kind := by
  have hBlock : part.spares (.ofBlock id) = true := by
    cases part with
    | ofBlock other => simpa [Part.spares, Part.item?, Part.Meets] using hId
    | _ => rfl
  rw [BlockGraph.edgesBy, BlockGraph.edgesBy, h.containsBlock hBlock]
  congr 2
  refine filter_eq_of_filter_eq h.edges fun x hx hTest => ?_
  -- An edge that is named is not at the block, since the part does not meet the block.
  refine decide_eq_true fun hNamed => hId ?_
  rw [h.edge x hx hNamed]
  simp only [Bool.and_eq_true, decide_eq_true_eq] at hTest
  exact hTest.1

/-- The symbols that pass a test are the same unless the named symbol passes it. -/
theorem SameBut.symbolsWhere (h : m.listing.SameBut part m'.listing) (test : Symbol → Bool)
    (hTest : ∀ id s, part = .ofSymbol id s → test s = false) :
    m'.symbols.symbolList.filter (fun x => test x.2) =
      m.symbols.symbolList.filter fun x => test x.2 := by
  refine filter_eq_of_filter_eq h.symbols fun x hx hPass => decide_eq_true fun hNamed => ?_
  rw [hTest _ _ (h.symbol x hx hNamed)] at hPass
  cases hPass

end Listing

/-- It is enough to compare listings: in sound modules every answer is one about them. -/
theorem sameBut_of_listing (h : m.Sound) (h' : m'.Sound)
    (hSame : m.listing.SameBut part m'.listing) : m.SameBut part m' where
  id := hSame.id
  tag := hSame.tag
  description := hSame.description
  entryPoint := hSame.entryPoint
  auxTable := hSame.auxTable
  blocks := hSame.blocks
  edges := hSame.edges
  symbols := hSame.symbols
  sections := hSame.sections
  item _ hId := hSame.item hId
  blocksAt _ := filter_filter_congr hSame.blocks _
  sectionsOn _ := filter_filter_congr hSame.sections _
  sectionsNamed _ := filter_filter_congr hSame.sections _
  leaving id kind hId := by rw [leaving_eq h', leaving_eq h, hSame.edgesBy kind hId]
  entering id kind hId := by rw [entering_eq h', entering_eq h, hSame.edgesBy kind hId]
  named name hName := by
    rw [find_eq h', find_eq h]
    refine hSame.symbolsWhere (fun s => s.name = name) fun id s hPart => ?_
    exact decide_eq_false fun hSymbol => hName (hPart ▸ hSymbol)
  referringTo id hId := by
    refine hSame.symbolsWhere (fun s => s.referent = .block id) fun other s hPart => ?_
    exact decide_eq_false fun hSymbol => hId (hPart ▸ hSymbol)

section Runs

/-! One kind of part for each list of a listing. -/

variable {l : Listing} {α : Type} {a : α}

namespace Listing

theorem sameBut_blocks {id : BlockId} {blocks : List (BlockId × Block)}
    (h : blocks.filter (·.1 ≠ id) = l.blocks.filter (·.1 ≠ id)) :
    l.SameBut (.ofBlock id) { l with blocks } where
  blocks := by simpa [Part.spares, Part.item?, eq_comm] using h

/-- In the list of edges only the content of the named edge has to be looked at, as it says which
answers meet it. -/
theorem sameBut_edges {id : EdgeId} {e : Edge} {edges : List (EdgeId × Edge)}
    (h : edges.filter (·.1 ≠ id) = l.edges.filter (·.1 ≠ id))
    (hOnly : ∀ x, x ∈ l.edges ∨ x ∈ edges → x.1 = id → x.2 = e) :
    l.SameBut (.ofEdge id e) { l with edges } where
  edges := by simpa [Part.spares, Part.item?, eq_comm] using h
  edge := by
    rintro ⟨other, e'⟩ hx hNamed
    cases hNamed
    cases hOnly _ hx rfl
    rfl

/-- The same for the list of symbols. -/
theorem sameBut_symbols {id : SymbolId} {s : Symbol} {symbols : List (SymbolId × Symbol)}
    (h : symbols.filter (·.1 ≠ id) = l.symbols.filter (·.1 ≠ id))
    (hOnly : ∀ x, x ∈ l.symbols ∨ x ∈ symbols → x.1 = id → x.2 = s) :
    l.SameBut (.ofSymbol id s) { l with symbols } where
  symbols := by simpa [Part.spares, Part.item?, eq_comm] using h
  symbol := by
    rintro ⟨other, s'⟩ hx hNamed
    cases hNamed
    cases hOnly _ hx rfl
    rfl

theorem sameBut_sections {id : SectionId} {sections : List (SectionId × Section)}
    (h : sections.filter (·.1 ≠ id) = l.sections.filter (·.1 ≠ id)) :
    l.SameBut (.ofSection id) { l with sections } where
  sections := by simpa [Part.spares, Part.item?, eq_comm] using h

theorem sameBut_entryPoint {entryPoint : Option BlockId} :
    l.SameBut .entryPoint { l with entryPoint } where
  entryPoint h := absurd rfl h

theorem sameBut_auxData {name : String} {auxData : AuxTables}
    (h : ∀ other, name ≠ other → auxData.get? other = l.auxData.get? other) :
    l.SameBut (.auxTable name) { l with auxData } where
  auxTable other hOther := h other fun hSame => hOther (hSame ▸ rfl)

theorem sameBut_addBlock (l : Listing) (kind : BlockKind) (attributes : BlockAttributes)
    (id : BlockId) : l.SameBut (.ofBlock id) (l.addBlock kind attributes id) := by
  rw [addBlock]
  cases Block.ofAttributes kind attributes with
  | ok b => exact sameBut_blocks (filter_ne_append _ _ _)
  | error => exact sameBut_blocks rfl

end Listing

/-- One step: in a sound module a change leaves everything alone but the part that it names. -/
theorem listing_sameBut_run (h : m.Sound) (op : Operation α) (hEdit : op.run m = .ok a m') :
    m.listing.SameBut (op.part a) m'.listing := by
  have hFresh := (change_run op hEdit).fresh h.wellFormed
  rw [listing_run h.wellFormed op hEdit]
  cases op with
  | addBlock | addCodeBlock | addDataBlock => exact Listing.sameBut_addBlock ..
  | addProxyBlock => exact Listing.sameBut_addBlock _ .proxy {} a
  | addEdge =>
      have hNew : m.blocks.edge? a = none := Option.map_eq_none_iff.mp (hFresh _ (.head _))
      exact Listing.sameBut_edges (filter_ne_append _ _ _)
        (snd_eq_of_fresh (fst_ne_of_find_eq_none BlockGraph.mem_edgeList hNew))
  | removeEdge =>
      have hOld := snd_eq_of_find_eq_some BlockGraph.mem_edgeList (edge?_of_removeEdge hEdit)
      exact Listing.sameBut_edges (filter_ne_filter_ne _ _) (snd_eq_of_mem hOld)
  | setBlockAddress => exact Listing.sameBut_blocks (filter_ne_map _ _ _)
  | removeBlock => exact Listing.sameBut_blocks (filter_ne_filter_ne _ _)
  | setEntryPoint => exact Listing.sameBut_entryPoint
  | addSymbol | addSymbolAtEnd =>
      have hNew : m.symbols.symbol? a = none := Option.map_eq_none_iff.mp (hFresh _ (.head _))
      exact Listing.sameBut_symbols (filter_ne_append _ _ _)
        (snd_eq_of_fresh (fst_ne_of_find_eq_none SymbolTable.mem_symbolList hNew))
  | removeSymbol =>
      have hOld := snd_eq_of_find_eq_some SymbolTable.mem_symbolList (symbol?_of_removeSymbol hEdit)
      exact Listing.sameBut_symbols (filter_ne_filter_ne _ _) (snd_eq_of_mem hOld)
  | addSection => exact Listing.sameBut_sections (filter_ne_append _ _ _)
  | removeSection => exact Listing.sameBut_sections (filter_ne_filter_ne _ _)
  | setAux name =>
      refine Listing.sameBut_auxData fun other hOther => ?_
      rw [Table.get?_insert, if_neg hOther]
  | removeAux name =>
      refine Listing.sameBut_auxData fun other hOther => ?_
      rw [Table.get?_erase, if_neg hOther]

/-- One step, in terms of the answers: what does not meet the named part is answered as before. -/
theorem sameBut_run (h : m.Sound) (op : Operation α) (hEdit : op.run m = .ok a m') :
    m.SameBut (op.part a) m' :=
  sameBut_of_listing h (sound_run h op hEdit) (listing_sameBut_run h op hEdit)

end Runs

end Module

end Disassembly
