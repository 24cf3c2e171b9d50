import Disassembly.Proofs.Renaming

/-! The ids that a module gives out and takes back, of all four kinds. Each kind has a store and
a counter of its own. Within its kind an id is known by its slot, which is its index without the
tag that block ids carry, so that ids can be followed when the tag changes. What any stretch of
changes does to the slots of a module is told by one relation, which goes on from one stretch to
the next. -/
namespace Disassembly

/-- The kinds of things that have ids within a module. -/
inductive Store where
  | blocks | edges | symbols | sections
deriving DecidableEq

/-- The place of a thing in its store. -/
structure Slot where
  store : Store
  index : UInt32
deriving DecidableEq

/-- An id of any kind. -/
inductive ItemId where
  | ofBlock (id : BlockId)
  | ofEdge (id : EdgeId)
  | ofSymbol (id : SymbolId)
  | ofSection (id : SectionId)
deriving DecidableEq

namespace ItemId

def slot : ItemId → Slot
  | ofBlock id => ⟨.blocks, id.index⟩
  | ofEdge id => ⟨.edges, id.index⟩
  | ofSymbol id => ⟨.symbols, id.index⟩
  | ofSection id => ⟨.sections, id.index⟩

/-- The id of the same slot in a module under another tag. -/
def under : ItemId → GraphTag → ItemId
  | ofBlock id, tag => ofBlock (id.under tag)
  | id, _ => id

end ItemId

/-- What an id can denote. -/
inductive Item where
  | ofBlock (b : Block)
  | ofEdge (e : Edge)
  | ofSymbol (s : Symbol)
  | ofSection (x : Section)

namespace Item

/-- The same content in a module under another tag. -/
def under : Item → GraphTag → Item
  | ofEdge e, tag => ofEdge (e.under tag)
  | ofSymbol s, tag => ofSymbol (s.under tag)
  | x, _ => x

/-- Whether two things count as one. A block may move to another address. -/
inductive SameAs : Item → Item → Prop where
  | rfl {x : Item} : SameAs x x
  | block {b b' : Block} (kind : b.kind = b'.kind) (size : b.size = b'.size)
      (decodeMode : b.decodeMode = b'.decodeMode) : SameAs (ofBlock b) (ofBlock b')

/-- A block can move more than once. -/
theorem SameAs.trans {x y z : Item} (h : x.SameAs y) (h' : y.SameAs z) : x.SameAs z := by
  cases h with
  | rfl => exact h'
  | block hKind hSize hMode =>
      cases h' with
      | rfl => exact .block hKind hSize hMode
      | block hKind' hSize' hMode' =>
          exact .block (hKind.trans hKind') (hSize.trans hSize') (hMode.trans hMode')

theorem SameAs.under {x y : Item} (h : x.SameAs y) (tag : GraphTag) :
    (x.under tag).SameAs (y.under tag) := by
  cases h with
  | rfl => exact .rfl
  | block hKind hSize hMode => exact .block hKind hSize hMode

@[simp] theorem under_under (x : Item) (tag tag' : GraphTag) :
    (x.under tag).under tag' = x.under tag' := by
  cases x <;> simp [Item.under]

end Item

namespace Module

/-- What is in a slot. -/
def slot? (m : Module) : Slot → Option Item
  | ⟨.blocks, i⟩ => (m.blocks.blocks.get? i).map .ofBlock
  | ⟨.edges, i⟩ => (m.blocks.edges.get? i).map .ofEdge
  | ⟨.symbols, i⟩ => (m.symbols.symbols.get? i).map .ofSymbol
  | ⟨.sections, i⟩ => (m.sections.sections.get? i).map .ofSection

/-- What an id denotes, looked up as callers do. -/
def item? (m : Module) : ItemId → Option Item
  | .ofBlock id => (m.blocks.block? id).map .ofBlock
  | .ofEdge id => (m.blocks.edge? id).map .ofEdge
  | .ofSymbol id => (m.symbols.symbol? id).map .ofSymbol
  | .ofSection id => (m.sections.section? id).map .ofSection

/-- The index that the next thing in a store gets. -/
def counter (m : Module) : Store → UInt32
  | .blocks => m.blocks.nextBlock
  | .edges => m.blocks.nextEdge
  | .symbols => m.symbols.nextSymbol
  | .sections => m.sections.nextSection

variable {m m' m'' : Module}

@[simp] theorem slot?_stored (m : Module) (slot : Slot) : m.stored.slot? slot = m.slot? slot := by
  obtain ⟨store, i⟩ := slot
  cases store <;> rfl

@[simp] theorem counter_stored (m : Module) (store : Store) :
    m.stored.counter store = m.counter store := by
  cases store <;> rfl

/-- Under another tag each slot holds what it held, with the block ids in it under that tag. -/
theorem slot?_under (m : Module) (id : ModuleId) (tag : GraphTag) (slot : Slot) :
    (m.under id tag).slot? slot = (m.slot? slot).map (·.under tag) := by
  obtain ⟨store, i⟩ := slot
  cases store <;>
    simp [slot?, Module.under, Table.get?_mapValues, Function.comp_def, Item.under]

/-- A new tag does not set the counters back. -/
theorem counter_under (m : Module) (id : ModuleId) (tag : GraphTag) (store : Store) :
    (m.under id tag).counter store = m.counter store := by
  cases store <;> rfl

/-- The id that a module has for a slot denotes what is in the slot. -/
theorem item?_under (id : ItemId) : m.item? (id.under m.graphTag) = m.slot? id.slot := by
  cases id with
  | ofBlock id => simp [item?, slot?, ItemId.slot, ItemId.under, BlockId.under, BlockGraph.block?,
      BlockGraph.owns, graphTag]
  | ofEdge | ofSymbol | ofSection => rfl

/-- An id denotes nothing or what is in its slot, and that only if it is under the tag of the
module. -/
theorem slot?_of_item? {id : ItemId} {x : Item} (h : m.item? id = some x) :
    m.slot? id.slot = some x ∧ id.under m.graphTag = id := by
  cases id with
  | ofBlock id =>
      obtain ⟨b, hb, rfl⟩ := Option.map_eq_some_iff.mp h
      obtain ⟨hTag, hb⟩ := BlockGraph.block?_eq_some_iff.mp hb
      exact ⟨Option.map_eq_some_iff.mpr ⟨b, hb, rfl⟩,
        congrArg ItemId.ofBlock (BlockId.under_of_graph_eq hTag)⟩
  | ofEdge | ofSymbol | ofSection => exact ⟨h, rfl⟩

/-- Whatever is in a slot, its counter has passed. -/
theorem WellFormed.slot_lt (h : m.WellFormed) {slot : Slot} {x : Item}
    (hx : m.slot? slot = some x) : slot.index < m.counter slot.store := by
  obtain ⟨store, i⟩ := slot
  cases store with
  | blocks =>
      obtain ⟨b, hb, -⟩ := Option.map_eq_some_iff.mp hx
      exact h.blocks.blockIndex i b hb
  | edges =>
      obtain ⟨e, he, -⟩ := Option.map_eq_some_iff.mp hx
      exact h.blocks.edgeIndex i e he
  | symbols =>
      obtain ⟨s, hs, -⟩ := Option.map_eq_some_iff.mp hx
      exact h.symbols.symbolIndex i s hs
  | sections =>
      obtain ⟨y, hy, -⟩ := Option.map_eq_some_iff.mp hx
      exact h.sections.sectionIndex i y hy

/-- Nothing is in a slot to which its counter has yet to come. -/
theorem WellFormed.slot?_eq_none (h : m.WellFormed) {slot : Slot}
    (hSlot : m.counter slot.store ≤ slot.index) : m.slot? slot = none := by
  by_contra hLive
  obtain ⟨x, hx⟩ := Option.ne_none_iff_exists'.mp hLive
  exact UInt32.not_lt.mpr hSlot (h.slot_lt hx)

/-- The content of a module is under its own tag. -/
theorem WellFormed.item_under (h : m.WellFormed) {slot : Slot} {x : Item}
    (hx : m.slot? slot = some x) : x.under m.graphTag = x := by
  obtain ⟨store, i⟩ := slot
  cases store with
  | blocks =>
      obtain ⟨b, -, rfl⟩ := Option.map_eq_some_iff.mp hx
      rfl
  | edges =>
      obtain ⟨e, he, rfl⟩ := Option.map_eq_some_iff.mp hx
      exact congrArg Item.ofEdge (h.edge_under he)
  | symbols =>
      obtain ⟨s, hs, rfl⟩ := Option.map_eq_some_iff.mp hx
      exact congrArg Item.ofSymbol (h.symbol_under hs)
  | sections =>
      obtain ⟨y, -, rfl⟩ := Option.map_eq_some_iff.mp hx
      rfl

/-- What a stretch of changes does to the slots of a module, given the ids that were given out
and taken back on the way. -/
structure Evolves (m : Module) (given taken : List ItemId) (m' : Module) : Prop where
  counter : ∀ store, m.counter store ≤ m'.counter store
  fresh : ∀ slot ∈ given.map ItemId.slot,
    m.counter slot.store ≤ slot.index ∧ slot.index < m'.counter slot.store
  distinct : (given.map ItemId.slot).Nodup
  old : ∀ slot, m'.slot? slot ≠ none → m.slot? slot ≠ none ∨ slot ∈ given.map ItemId.slot
  kept : ∀ slot x, m.slot? slot = some x → slot ∉ taken.map ItemId.slot →
    ∃ y, m'.slot? slot = some y ∧ y.SameAs (x.under m'.graphTag)
  gone : ∀ slot ∈ taken.map ItemId.slot,
    slot.index < m'.counter slot.store ∧ m'.slot? slot = none

/-- One stretch after another. What the first took back stays away, since the second gives out
nothing below the counters that it finds. -/
theorem Evolves.trans {given taken given' taken' : List ItemId} (h : m.Evolves given taken m')
    (h' : m'.Evolves given' taken' m'') :
    m.Evolves (given ++ given') (taken ++ taken') m'' where
  counter store := UInt32.le_trans (h.counter store) (h'.counter store)
  fresh slot hGiven := by
    rw [List.map_append, List.mem_append] at hGiven
    rcases hGiven with hFirst | hSecond
    · obtain ⟨hLow, hHigh⟩ := h.fresh slot hFirst
      exact ⟨hLow, UInt32.lt_of_lt_of_le hHigh (h'.counter _)⟩
    · obtain ⟨hLow, hHigh⟩ := h'.fresh slot hSecond
      exact ⟨UInt32.le_trans (h.counter _) hLow, hHigh⟩
  distinct := by
    rw [List.map_append, List.nodup_append']
    refine ⟨h.distinct, h'.distinct, fun slot hFirst hSecond => ?_⟩
    exact UInt32.not_lt.mpr (h'.fresh slot hSecond).1 (h.fresh slot hFirst).2
  old slot hLive := by
    rw [List.map_append, List.mem_append]
    rcases h'.old slot hLive with hMiddle | hSecond
    · exact (h.old slot hMiddle).imp_right .inl
    · exact .inr (.inr hSecond)
  kept slot x hx hTaken := by
    rw [List.map_append, List.mem_append, not_or] at hTaken
    obtain ⟨y, hy, hSame⟩ := h.kept slot x hx hTaken.1
    obtain ⟨z, hz, hSame'⟩ := h'.kept slot y hy hTaken.2
    have hUnder := hSame.under m''.graphTag
    rw [Item.under_under] at hUnder
    exact ⟨z, hz, hSame'.trans hUnder⟩
  gone slot hTaken := by
    rw [List.map_append, List.mem_append] at hTaken
    rcases hTaken with hFirst | hSecond
    · obtain ⟨hPassed, hNone⟩ := h.gone slot hFirst
      refine ⟨UInt32.lt_of_lt_of_le hPassed (h'.counter _), ?_⟩
      -- What is there in the end was there in the middle or is new, and the slot is neither.
      by_contra hLive
      rcases h'.old slot hLive with hMiddle | hSecond
      · exact hMiddle hNone
      · exact UInt32.not_lt.mpr (h'.fresh slot hSecond).1 hPassed
    · exact h'.gone slot hSecond

/-- A stretch in which nothing comes or goes can be put behind any other. -/
theorem Evolves.trans_nil {given taken : List ItemId} (h : m.Evolves given taken m')
    (h' : m'.Evolves [] [] m'') : m.Evolves given taken m'' := by
  have hBoth := h.trans h'
  rwa [List.append_nil, List.append_nil] at hBoth

end Module

end Disassembly
