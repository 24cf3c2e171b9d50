import Disassembly.Proofs.GraphEdits
import Disassembly.Proofs.Linked

/-! Every change of a block graph keeps the rules of a graph together with its lists of edges.
A block can be removed safely only because the lists are right: they are all that is looked at
before it goes. -/
namespace Disassembly.BlockGraph

variable {g g' : BlockGraph}

/-- The rules of a graph, and lists of edges that agree with its store. -/
structure Sound (g : BlockGraph) : Prop where
  wellFormed : g.WellFormed
  linked : g.Linked

/-- Every block that was live is still live, and of the kind it had. -/
def Keeps (g g' : BlockGraph) : Prop :=
  ∀ id b, g.block? id = some b → ∃ b', g'.block? id = some b' ∧ b'.kind = b.kind

theorem Keeps.refl (g : BlockGraph) : g.Keeps g := fun _ b hb => ⟨b, hb, rfl⟩

/-- A change of the store of blocks alone keeps the rules if it keeps what edges refer to. -/
theorem WellFormed.of_blocks (h : g.WellFormed) (hEdges : g'.edges = g.edges)
    (hNext : g'.nextEdge = g.nextEdge) (hKeeps : g.Keeps g')
    (hIndex : ∀ i b, g'.blocks.get? i = some b → i < g'.nextBlock)
    (hFits : ∀ i b, g'.blocks.get? i = some b → b.Fits) : g'.WellFormed where
  blockIndex := hIndex
  edgeIndex := by
    rw [hEdges, hNext]
    exact h.edgeIndex
  blockFits := hFits
  source i e he := by
    obtain ⟨b, hb, hProxy⟩ := h.source i e (hEdges ▸ he)
    obtain ⟨b', hb', hKind⟩ := hKeeps _ _ hb
    exact ⟨b', hb', by rwa [Block.isProxy, hKind]⟩
  target i e he := by
    obtain ⟨b, hb⟩ := h.target i e (hEdges ▸ he)
    obtain ⟨b', hb', -⟩ := hKeeps _ _ hb
    exact ⟨b', hb'⟩

/-- Each list has the edges of its block whose ids do not lie below `first`. Edges below it are
in the store and on no list. -/
structure ListsFrom (g : BlockGraph) (first : UInt32) : Prop where
  outgoing : ∀ i, g.outgoing.edgesAt i =
    (g.edgesWhere (·.source.index = i)).filter (first ≤ ·.index)
  incoming : ∀ i, g.incoming.edgesAt i =
    (g.edgesWhere (·.target.index = i)).filter (first ≤ ·.index)

/-- With nothing below the bound, the lists are complete. -/
theorem linked_iff_listsFrom : g.Linked ↔ g.ListsFrom 0 := by
  have hAll : ∀ ids : List EdgeId, ids.filter (0 ≤ ·.index) = ids := fun ids =>
    List.filter_eq_self.mpr fun id _ => decide_eq_true id.index.zero_le
  constructor
  · exact fun h => ⟨fun i => by rw [h.outgoing, hAll], fun i => by rw [h.incoming, hAll]⟩
  · exact fun h => ⟨fun i => by rw [h.outgoing, hAll], fun i => by rw [h.incoming, hAll]⟩

theorem Sound.lists (h : g.Sound) : g.ListsFrom 0 := linked_iff_listsFrom.mp h.linked

section Lists

variable {first : UInt32}

theorem ListsFrom.linked (h : g.ListsFrom 0) : g.Linked := linked_iff_listsFrom.mpr h

/-- The lists are still right when neither they nor the edges have changed. -/
theorem ListsFrom.of_edges (h : g.ListsFrom first) (hEdges : g'.edges = g.edges)
    (hOut : ∀ i, g'.outgoing.edgesAt i = g.outgoing.edgesAt i)
    (hIn : ∀ i, g'.incoming.edgesAt i = g.incoming.edgesAt i) : g'.ListsFrom first where
  outgoing i := by rw [hOut, h.outgoing, edgesWhere_congr hEdges]
  incoming i := by rw [hIn, h.incoming, edgesWhere_congr hEdges]

end Lists

theorem sound_empty (tag : GraphTag) : (empty tag).Sound where
  wellFormed := {
    blockIndex := fun i b h => by cases h
    edgeIndex := fun i e h => by cases h
    blockFits := fun i b h => by cases h
    source := fun i e h => by cases h
    target := fun i e h => by cases h }
  linked := linked_empty tag

section AddBlock

variable {kind : BlockKind} {attributes : BlockAttributes} {id : BlockId}

/-- A new block takes a new index, so it takes the place of no other. -/
theorem keeps_addBlock (h : g.WellFormed) (hEdit : addBlock kind attributes g = .ok id g') :
    g.Keeps g' := by
  obtain ⟨b, next, -, -, -, rfl⟩ := addBlock_eq_ok.mp hEdit
  intro other b' hb'
  obtain ⟨hTag, hLive⟩ := block?_eq_some_iff.mp hb'
  have hOld : g.nextBlock ≠ other.index := by
    intro hSame
    have := h.blockIndex _ _ hLive
    rw [hSame] at this
    exact UInt32.lt_irrefl _ this
  refine ⟨b', block?_eq_some_iff.mpr ⟨hTag, ?_⟩, rfl⟩
  rw [Table.get?_insert, if_neg hOld]
  exact hLive

/-- A new block keeps the rules: it fits where it is made, and the edges keep their ends. -/
theorem sound_addBlock (h : g.Sound) (hEdit : addBlock kind attributes g = .ok id g') :
    g'.Sound := by
  have hKeeps := keeps_addBlock h.wellFormed hEdit
  obtain ⟨b, next, hMade, hNext, -, rfl⟩ := addBlock_eq_ok.mp hEdit
  refine ⟨h.wellFormed.of_blocks rfl rfl hKeeps
    (Table.bound_insert h.wellFormed.blockIndex (lt_of_nextIndex? hNext)) (fun i b' hb' => ?_),
    linked_iff_listsFrom.mpr (h.lists.of_edges rfl (fun _ => rfl) fun _ => rfl)⟩
  rcases Table.get?_insert_eq_some_iff.mp hb' with ⟨-, rfl⟩ | ⟨-, hOld⟩
  · exact (Block.fits_of_ofAttributes hMade).1
  · exact h.wellFormed.blockFits i b' hOld

end AddBlock

section AddEdge

variable {source target : BlockId} {label : EdgeLabel} {id : EdgeId}

/-- An edge makes no difference to the blocks. -/
theorem keeps_addEdge (hEdit : addEdge source target label g = .ok id g') : g.Keeps g' := by
  obtain ⟨b, next, -, -, -, -, -, rfl⟩ := addEdge_eq_ok.mp hEdit
  exact Keeps.refl g

/-- The new edge has the highest id, so it stands at the end of every list that it is on. -/
theorem edgesWhere_insert {e : Edge} (hIndex : ∀ i e, g.edges.get? i = some e → i < g.nextEdge)
    (hEdges : g'.edges = g.edges.insert g.nextEdge e) (test : Edge → Bool) :
    g'.edgesWhere test =
      if test e then g.edgesWhere test ++ [⟨g.nextEdge⟩] else g.edgesWhere test := by
  rw [edgesWhere, edgesWhere, hEdges, Table.keysWhere_insert_of_bound e hIndex]
  cases hTest : test e <;> simp

/-- A new edge is put on the lists of its ends, provided that its id does not lie below the
bound. -/
theorem ListsFrom.addEdge {first : UInt32} (h : g.ListsFrom first)
    (hIndex : ∀ i e, g.edges.get? i = some e → i < g.nextEdge) (hFirst : first ≤ g.nextEdge)
    (hEdit : addEdge source target label g = .ok id g') : g'.ListsFrom first := by
  obtain ⟨b, next, -, -, -, -, -, rfl⟩ := addEdge_eq_ok.mp hEdit
  refine ⟨fun i => ?_, fun i => ?_⟩
  · rw [edgesWhere_insert hIndex rfl, Adjacency.edgesAt_push, h.outgoing]
    by_cases hAt : source.index = i <;> simp [hAt, hFirst]
  · rw [edgesWhere_insert hIndex rfl, Adjacency.edgesAt_push, h.incoming]
    by_cases hAt : target.index = i <;> simp [hAt, hFirst]

/-- A new edge keeps the rules, since its ends are checked before it is drawn. -/
theorem sound_addEdge (h : g.Sound) (hEdit : addEdge source target label g = .ok id g') :
    g'.Sound := by
  have hLists := h.lists.addEdge h.wellFormed.edgeIndex g.nextEdge.zero_le hEdit
  obtain ⟨b, next, hSource, hProxy, hTarget, hNext, -, rfl⟩ := addEdge_eq_ok.mp hEdit
  refine ⟨⟨h.wellFormed.blockIndex,
    Table.bound_insert h.wellFormed.edgeIndex (lt_of_nextIndex? hNext), h.wellFormed.blockFits,
    fun i e he => ?_, fun i e he => ?_⟩, hLists.linked⟩
  · rcases Table.get?_insert_eq_some_iff.mp he with ⟨-, rfl⟩ | ⟨-, hOld⟩
    · exact ⟨b, hSource, hProxy⟩
    · exact h.wellFormed.source i e hOld
  · rcases Table.get?_insert_eq_some_iff.mp he with ⟨-, rfl⟩ | ⟨-, hOld⟩
    · exact hTarget
    · exact h.wellFormed.target i e hOld

end AddEdge

section RemoveEdge

variable {id : EdgeId} {e : Edge}

theorem keeps_removeEdge (hEdit : removeEdge id g = .ok e g') : g.Keeps g' := by
  obtain ⟨-, rfl⟩ := removeEdge_eq_ok.mp hEdit
  exact Keeps.refl g

/-- Taking the edge off the list of a block gives the list without that edge. A block at
which the edge does not stand keeps its list. -/
theorem edgesWhere_erase (hEdges : g'.edges = g.edges.erase id.index)
    (he : g.edges.get? id.index = some e) (test : Edge → Bool) :
    g'.edgesWhere test =
      if test e then (g.edgesWhere test).filter (· ≠ id) else g.edgesWhere test := by
  obtain ⟨index⟩ := id
  rw [edgesWhere, edgesWhere, hEdges]
  cases hTest : test e with
  | false => rw [Table.keysWhere_erase_of_false he hTest]; rfl
  | true =>
      rw [Table.keysWhere_erase, if_pos rfl, List.filter_map]
      congr 2
      funext i
      simp

/-- An edge that is taken out comes off the lists of its ends and leaves the others in order. -/
theorem ListsFrom.removeEdge {first : UInt32} (h : g.ListsFrom first)
    (hEdit : removeEdge id g = .ok e g') : g'.ListsFrom first := by
  obtain ⟨he, rfl⟩ := removeEdge_eq_ok.mp hEdit
  refine ⟨fun i => ?_, fun i => ?_⟩
  · rw [edgesWhere_erase rfl he, Adjacency.edgesAt_drop, h.outgoing]
    by_cases hAt : e.source.index = i <;> simp [hAt, List.filter_filter, Bool.and_comm]
  · rw [edgesWhere_erase rfl he, Adjacency.edgesAt_drop, h.incoming]
    by_cases hAt : e.target.index = i <;> simp [hAt, List.filter_filter, Bool.and_comm]

/-- A graph without one of its edges keeps the rules: of what is left, nothing new is asked. -/
theorem sound_removeEdge (h : g.Sound) (hEdit : removeEdge id g = .ok e g') : g'.Sound := by
  have hLists := h.lists.removeEdge hEdit
  obtain ⟨he, rfl⟩ := removeEdge_eq_ok.mp hEdit
  have hStill : ∀ i e', (g.edges.erase id.index).get? i = some e' →
      g.edges.get? i = some e' := fun i e' he' => (Table.get?_erase_eq_some_iff.mp he').2
  exact ⟨⟨h.wellFormed.blockIndex, Table.bound_erase h.wellFormed.edgeIndex,
    h.wellFormed.blockFits, fun i e' he' => h.wellFormed.source i e' (hStill i e' he'),
    fun i e' he' => h.wellFormed.target i e' (hStill i e' he')⟩, hLists.linked⟩

end RemoveEdge

section RemoveBlock

variable {id : BlockId} {b : Block}

/-- With a count of zero both lists of a block are empty. A self-loop is counted once although it
is on both lists, so the list of entering edges must be empty, and then no listed edge can be a
loop. -/
theorem ListsFrom.edgesAt_of_count {first : UInt32} (h : g.ListsFrom first)
    (hCount : g.incidentEdgeCount id = 0) :
    g.outgoing.edgesAt id.index = [] ∧ g.incoming.edgesAt id.index = [] := by
  let loop (edge : EdgeId) : Bool := (g.edge? edge).any fun e => e.target = id
  have hSum : (g.outgoing.edgesAt id.index).length + (g.incoming.edgesAt id.index).length -
      ((g.outgoing.edgesAt id.index).filter loop).length = 0 := hCount
  have hLoops := List.length_filter_le loop (g.outgoing.edgesAt id.index)
  have hEntering : g.incoming.edgesAt id.index = [] := List.eq_nil_of_length_eq_zero (by omega)
  have hAll : (g.outgoing.edgesAt id.index).filter loop = g.outgoing.edgesAt id.index :=
    List.filter_sublist.eq_of_length_le (by omega)
  refine ⟨List.eq_nil_iff_forall_not_mem.mpr fun edge hm => ?_, hEntering⟩
  obtain ⟨e, he, hTarget⟩ := (Option.any_eq_true _ _).mp (List.filter_eq_self.mp hAll edge hm)
  rw [h.outgoing] at hm
  have hEnters : edge ∈ g.incoming.edgesAt id.index := by
    rw [h.incoming]
    have hAt := congrArg BlockId.index (of_decide_eq_true hTarget)
    exact List.mem_filter.mpr ⟨mem_edgesWhere.mpr ⟨e, he, by simpa using hAt⟩,
      (List.mem_filter.mp hm).2⟩
  rw [hEntering] at hEnters
  cases hEnters

/-- A block can only be removed when no edge that is on a list begins or ends at it. -/
theorem ListsFrom.apart {first : UInt32} (h : g.ListsFrom first)
    (hEdit : removeBlock id g = .ok b g') {i : UInt32} {e : Edge}
    (he : g.edges.get? i = some e) (hListed : first ≤ i) :
    e.source.index ≠ id.index ∧ e.target.index ≠ id.index := by
  obtain ⟨-, hCount, -⟩ := removeBlock_eq_ok.mp hEdit
  obtain ⟨hLeaving, hEntering⟩ := h.edgesAt_of_count hCount
  have hOn : ∀ test : Edge → Bool, test e = true →
      (⟨i⟩ : EdgeId) ∈ (g.edgesWhere test).filter (first ≤ ·.index) := fun test hTest =>
    List.mem_filter.mpr ⟨mem_edgesWhere.mpr ⟨e, he, hTest⟩, decide_eq_true hListed⟩
  constructor
  · intro hAt
    have hm := hOn (·.source.index = id.index) (decide_eq_true hAt)
    rw [← h.outgoing, hLeaving] at hm
    cases hm
  · intro hAt
    have hm := hOn (·.target.index = id.index) (decide_eq_true hAt)
    rw [← h.incoming, hEntering] at hm
    cases hm

/-- A block can only be removed when no stored edge begins or ends at it. -/
theorem apart_of_removeBlock (h : g.Linked) (hEdit : removeBlock id g = .ok b g') {i : UInt32}
    {e : Edge} (he : g.edges.get? i = some e) :
    e.source.index ≠ id.index ∧ e.target.index ≠ id.index :=
  (linked_iff_listsFrom.mp h).apart hEdit he i.zero_le

/-- The lists of the block go with it. They are empty by then. -/
theorem ListsFrom.removeBlock {first : UInt32} (h : g.ListsFrom first)
    (hEdit : removeBlock id g = .ok b g') : g'.ListsFrom first := by
  obtain ⟨-, hCount, rfl⟩ := removeBlock_eq_ok.mp hEdit
  obtain ⟨hLeaving, hEntering⟩ := h.edgesAt_of_count hCount
  refine h.of_edges rfl (fun i => ?_) fun i => ?_
  · rw [Adjacency.edgesAt_erase]
    split
    · rename_i hSame
      rw [← hSame, hLeaving]
    · rfl
  · rw [Adjacency.edgesAt_erase]
    split
    · rename_i hSame
      rw [← hSame, hEntering]
    · rfl

/-- Every other block stays as it is. -/
theorem block?_removeBlock (hEdit : removeBlock id g = .ok b g') {other : BlockId} {b' : Block}
    (hOther : other.index ≠ id.index) (hb' : g.block? other = some b') :
    g'.block? other = some b' := by
  obtain ⟨-, -, rfl⟩ := removeBlock_eq_ok.mp hEdit
  obtain ⟨hTag, hLive⟩ := block?_eq_some_iff.mp hb'
  refine block?_eq_some_iff.mpr ⟨hTag, ?_⟩
  rw [Table.get?_erase, if_neg (Ne.symm hOther)]
  exact hLive

/-- A removed block keeps the rules, because no edge is left without an end. This is where the lists
have to be right. -/
theorem sound_removeBlock (h : g.Sound) (hEdit : removeBlock id g = .ok b g') : g'.Sound := by
  have hApart : ∀ i e, g.edges.get? i = some e →
      e.source.index ≠ id.index ∧ e.target.index ≠ id.index :=
    fun i e he => apart_of_removeBlock h.linked hEdit he
  have hStay : ∀ other b', other.index ≠ id.index → g.block? other = some b' →
      g'.block? other = some b' := fun other b' => block?_removeBlock hEdit
  have hLists := h.lists.removeBlock hEdit
  obtain ⟨-, -, rfl⟩ := removeBlock_eq_ok.mp hEdit
  refine ⟨⟨Table.bound_erase h.wellFormed.blockIndex, h.wellFormed.edgeIndex,
    fun i b' hb' => h.wellFormed.blockFits i b' (Table.get?_erase_eq_some_iff.mp hb').2,
    fun i e he => ?_, fun i e he => ?_⟩, hLists.linked⟩
  · obtain ⟨b', hb', hProxy⟩ := h.wellFormed.source i e he
    exact ⟨b', hStay _ _ (hApart i e he).1 hb', hProxy⟩
  · obtain ⟨b', hb'⟩ := h.wellFormed.target i e he
    exact ⟨b', hStay _ _ (hApart i e he).2 hb'⟩

end RemoveBlock

section SetBlockAddress

variable {id : BlockId} {address : Option UInt64} {u : Unit}

/-- A block that is moved is still live, and the others are the same. -/
theorem keeps_setBlockAddress (hEdit : setBlockAddress id address g = .ok u g') :
    g.Keeps g' := by
  obtain ⟨b, moved, hb, hMoved, -, rfl⟩ := setBlockAddress_eq_ok.mp hEdit
  have hKind := Block.kind_of_withAddress hMoved
  obtain ⟨-, hLive⟩ := block?_eq_some_iff.mp hb
  intro other b' hb'
  obtain ⟨hTag, hLive'⟩ := block?_eq_some_iff.mp hb'
  by_cases hAt : id.index = other.index
  · rw [← hAt, hLive] at hLive'
    cases hLive'
    refine ⟨moved, block?_eq_some_iff.mpr ⟨hTag, ?_⟩, hKind⟩
    rw [Table.get?_insert, if_pos hAt]
  · refine ⟨b', block?_eq_some_iff.mpr ⟨hTag, ?_⟩, rfl⟩
    rw [Table.get?_insert, if_neg hAt]
    exact hLive'

/-- A moved block keeps the rules, since whether it fits is checked for the new address. -/
theorem sound_setBlockAddress (h : g.Sound) (hEdit : setBlockAddress id address g = .ok u g') :
    g'.Sound := by
  have hKeeps := keeps_setBlockAddress hEdit
  obtain ⟨b, moved, hb, hMoved, hFits, rfl⟩ := setBlockAddress_eq_ok.mp hEdit
  obtain ⟨-, hLive⟩ := block?_eq_some_iff.mp hb
  refine ⟨h.wellFormed.of_blocks rfl rfl hKeeps (fun i b' hb' => ?_) (fun i b' hb' => ?_),
    linked_iff_listsFrom.mpr (h.lists.of_edges rfl (fun _ => rfl) fun _ => rfl)⟩
  · rcases Table.get?_insert_eq_some_iff.mp hb' with ⟨rfl, -⟩ | ⟨-, hOld⟩
    · exact h.wellFormed.blockIndex id.index b hLive
    · exact h.wellFormed.blockIndex i b' hOld
  · rcases Table.get?_insert_eq_some_iff.mp hb' with ⟨-, rfl⟩ | ⟨-, hOld⟩
    · exact hFits
    · exact h.wellFormed.blockFits i b' hOld

end SetBlockAddress

section Retag

variable {tag : GraphTag}

theorem block?_retag {g : BlockGraph} {id : BlockId} {b : Block} (hb : g.block? id = some b) :
    (g.retag tag).block? ⟨tag, id.index⟩ = some b :=
  block?_eq_some_iff.mpr ⟨rfl, (block?_eq_some_iff.mp hb).2⟩

theorem edgesWhere_retag (g : BlockGraph) (test : Edge → Bool) :
    (g.retag tag).edgesWhere test = g.edgesWhere fun e =>
      test { e with source := ⟨tag, e.source.index⟩, target := ⟨tag, e.target.index⟩ } := by
  simp only [edgesWhere, retag, Table.keysWhere_mapValues]

/-- Edges are listed by the index of a block alone, and that outlives its tag. -/
theorem ListsFrom.retag {first : UInt32} (h : g.ListsFrom first) :
    (g.retag tag).ListsFrom first := by
  refine ⟨fun i => ?_, fun i => ?_⟩
  · rw [edgesWhere_retag]
    exact h.outgoing i
  · rw [edgesWhere_retag]
    exact h.incoming i

/-- A new tag goes to the graph and to all ends of edges, so the rules hold as they did. -/
theorem sound_retag (h : g.Sound) : (g.retag tag).Sound := by
  refine ⟨⟨h.wellFormed.blockIndex, fun i e he => ?_, h.wellFormed.blockFits,
    fun i e he => ?_, fun i e he => ?_⟩, h.lists.retag.linked⟩
  · obtain ⟨e, hOld, rfl⟩ := Table.get?_mapValues_eq_some_iff.mp he
    exact h.wellFormed.edgeIndex i e hOld
  · obtain ⟨e, hOld, rfl⟩ := Table.get?_mapValues_eq_some_iff.mp he
    obtain ⟨b, hb, hProxy⟩ := h.wellFormed.source i e hOld
    exact ⟨b, block?_retag hb, hProxy⟩
  · obtain ⟨e, hOld, rfl⟩ := Table.get?_mapValues_eq_some_iff.mp he
    obtain ⟨b, hb⟩ := h.wellFormed.target i e hOld
    exact ⟨b, block?_retag hb⟩

end Retag

end Disassembly.BlockGraph
