import Disassembly.Proofs.Locality
import Disassembly.Proofs.RawModules

/-! Edges whose block goes. Whether edges are left at a block is read off the lists of edges, and a
module that is read alone comes without them. So a block can be taken from such a module although
an edge that was read with it begins or ends there. No other edge is ever left behind: what is added
later is on the lists, and in a module that was stored and loaded every edge is. -/
namespace Disassembly

namespace BlockGraph

variable {start g g' : BlockGraph} {first bound : UInt32}

/-- If no edge lies below the bound, the lists are complete. -/
theorem ListsFrom.linked_of_le (h : g.ListsFrom bound)
    (hListed : ∀ i e, g.edges.get? i = some e → bound ≤ i) : g.Linked := by
  have hAll : ∀ test : Edge → Bool,
      (g.edgesWhere test).filter (bound ≤ ·.index) = g.edgesWhere test := by
    refine fun test => List.filter_eq_self.mpr fun id hid => ?_
    obtain ⟨e, he, -⟩ := mem_edgesWhere.mp hid
    exact decide_eq_true (hListed _ e he)
  exact ⟨fun i => by rw [h.outgoing, hAll], fun i => by rw [h.incoming, hAll]⟩

/-- Without lists, no edge is on one. -/
theorem listsFrom_nextEdge (hIndex : ∀ i e, g.edges.get? i = some e → i < g.nextEdge)
    (hOut : g.outgoing = ∅) (hIn : g.incoming = ∅) : g.ListsFrom g.nextEdge := by
  have hNone : ∀ test : Edge → Bool,
      (g.edgesWhere test).filter (g.nextEdge ≤ ·.index) = [] := by
    refine fun test => List.filter_eq_nil_iff.mpr fun id hid hBeyond => ?_
    obtain ⟨e, he, -⟩ := mem_edgesWhere.mp hid
    exact UInt32.not_lt.mpr (of_decide_eq_true hBeyond) (hIndex _ e he)
  exact ⟨fun i => by rw [hNone, hOut]; rfl, fun i => by rw [hNone, hIn]; rfl⟩

/-- What a history that began with `start` leaves of its edges. Those that are on no list lie below
`first`, and an edge below `first` has been there from the start, between the same two blocks. -/
structure Follows (start : BlockGraph) (first : UInt32) (g : BlockGraph) : Prop where
  edgeIndex : ∀ i e, g.edges.get? i = some e → i < g.nextEdge
  passed : first ≤ g.nextEdge
  lists : ∃ bound, bound ≤ first ∧ g.ListsFrom bound
  old : ∀ i e, g.edges.get? i = some e → i < first → ∃ e₀, start.edges.get? i = some e₀ ∧
    e₀.source.index = e.source.index ∧ e₀.target.index = e.target.index

/-- The store of edges may get other lists. -/
theorem Follows.of_edges (h : start.Follows first g) (hEdges : g'.edges = g.edges)
    (hNext : g'.nextEdge = g.nextEdge) (hLists : ∃ bound, bound ≤ first ∧ g'.ListsFrom bound) :
    start.Follows first g' where
  edgeIndex := by
    rw [hEdges, hNext]
    exact h.edgeIndex
  passed := hNext ▸ h.passed
  lists := hLists
  old := by
    rw [hEdges]
    exact h.old

/-- A change of the store of blocks alone. -/
theorem Follows.of_blocks (h : start.Follows first g) {nextBlock : UInt32}
    {blocks : Table UInt32 Block} : start.Follows first { g with nextBlock, blocks } := by
  obtain ⟨bound, hBound, hListed⟩ := h.lists
  exact h.of_edges rfl rfl ⟨bound, hBound, hListed.of_edges rfl (fun _ => rfl) fun _ => rfl⟩

/-- A block that goes takes its own lists along, and these were empty. The edges stay, even those
that were on no list. -/
theorem Follows.removeBlock {id : BlockId} {b : Block} (h : start.Follows first g)
    (hEdit : removeBlock id g = .ok b g') : start.Follows first g' := by
  obtain ⟨bound, hBound, hListed⟩ := h.lists
  have hLists := hListed.removeBlock hEdit
  obtain ⟨-, -, rfl⟩ := removeBlock_eq_ok.mp hEdit
  exact h.of_edges rfl rfl ⟨bound, hBound, hLists⟩

/-- A new edge lies above the bound and is put on the lists, so it is not among those that can be
left behind. -/
theorem Follows.addEdge {source target : BlockId} {label : EdgeLabel} {id : EdgeId}
    (h : start.Follows first g) (hEdit : addEdge source target label g = .ok id g') :
    start.Follows first g' := by
  obtain ⟨bound, hBound, hListed⟩ := h.lists
  have hLists := hListed.addEdge h.edgeIndex (UInt32.le_trans hBound h.passed) hEdit
  obtain ⟨b, next, -, -, -, hNext, -, rfl⟩ := addEdge_eq_ok.mp hEdit
  have hOnward := lt_of_nextIndex? hNext
  refine ⟨Table.bound_insert h.edgeIndex hOnward,
    UInt32.le_trans h.passed (UInt32.le_of_lt hOnward), ⟨bound, hBound, hLists⟩,
    fun i e he hOld => ?_⟩
  rcases Table.get?_insert_eq_some_iff.mp he with ⟨rfl, -⟩ | ⟨-, hStored⟩
  · exact absurd hOld (UInt32.not_lt.mpr h.passed)
  · exact h.old i e hStored hOld

/-- An edge that is taken out was on its lists or on none. The others are where they were. -/
theorem Follows.removeEdge {id : EdgeId} {e : Edge} (h : start.Follows first g)
    (hEdit : removeEdge id g = .ok e g') : start.Follows first g' := by
  obtain ⟨bound, hBound, hListed⟩ := h.lists
  have hLists := hListed.removeEdge hEdit
  obtain ⟨-, rfl⟩ := removeEdge_eq_ok.mp hEdit
  exact ⟨Table.bound_erase h.edgeIndex, h.passed, ⟨bound, hBound, hLists⟩,
    fun i e he hOld => h.old i e (Table.get?_erase_eq_some_iff.mp he).2 hOld⟩

/-- A move to another tag keeps the indices of edges and of their ends, and the lists know no more
than these. -/
theorem Follows.retag (h : start.Follows first g) (tag : GraphTag) :
    start.Follows first (g.retag tag) := by
  obtain ⟨bound, hBound, hListed⟩ := h.lists
  refine ⟨fun i e he => ?_, h.passed, ⟨bound, hBound, hListed.retag⟩, fun i e he hOld => ?_⟩
  · obtain ⟨e, hStored, rfl⟩ := Table.get?_mapValues_eq_some_iff.mp he
    exact h.edgeIndex i e hStored
  · obtain ⟨e, hStored, rfl⟩ := Table.get?_mapValues_eq_some_iff.mp he
    exact h.old i e hStored hOld

/-- In a graph that is loaded every edge is on its lists. -/
theorem Follows.relink (h : start.Follows first g) : start.Follows first g.stored.relink := by
  have hStored := g.stored.stored_relink
  have hEdges : g.stored.relink.edges = g.edges := congrArg (fun g => g.edges) hStored
  have hNext : g.stored.relink.nextEdge = g.nextEdge := congrArg (fun g => g.nextEdge) hStored
  have hListed := linked_iff_listsFrom.mp g.stored.linked_relink
  exact h.of_edges hEdges hNext ⟨0, first.zero_le, hListed⟩

end BlockGraph

namespace Module

variable {m m' start now : Module} {first : UInt32} {α : Type} {a : α}
  {given taken : List ItemId} {id : BlockId} {b : Block}

/-- The ways to come by a module, with the first id from which its edges are listed. A module that
is read alone has its content checked but not its lists made, which hold later edges only. -/
inductive Obtained : UInt32 → Module → Prop where
  | read {text : String} {m : Module} (hRead : Document.readModule? text = some m)
      (hCheck : m.check = .ok ()) : Obtained m.blocks.nextEdge m
  | built {m : Module} (h : m.Reachable) : Obtained 0 m

/-- Whichever way one comes by a module, its rules hold. -/
theorem Obtained.wellFormed (h : m.Obtained first) : m.WellFormed := by
  cases h with
  | read _ hCheck => exact check_eq_ok_iff.mp hCheck
  | built h => exact h.sound.wellFormed

/-- At the start of a history nothing has changed. Of a module that is read alone no edge is on a
list, so the bound is the id that the next edge gets; of any other all are, and the bound is
zero. -/
theorem Obtained.follows (h : m.Obtained first) : m.blocks.Follows first m.blocks := by
  have hIndex := h.wellFormed.blocks.edgeIndex
  have hOld : ∀ i e, m.blocks.edges.get? i = some e → i < first → ∃ e₀,
      m.blocks.edges.get? i = some e₀ ∧ e₀.source.index = e.source.index ∧
        e₀.target.index = e.target.index := fun i e he _ => ⟨e, he, rfl, rfl⟩
  cases h with
  | read hRead _ =>
      obtain ⟨hOut, hIn⟩ := Document.lists_of_readModule? hRead
      have hListed := BlockGraph.listsFrom_nextEdge hIndex hOut hIn
      exact ⟨hIndex, UInt32.le_refl _, ⟨_, UInt32.le_refl _, hListed⟩, hOld⟩
  | built h => exact ⟨hIndex, UInt32.zero_le, ⟨0, UInt32.le_refl _, h.sound.blocks.lists⟩, hOld⟩

/-- One step: what a change that succeeds leaves of the edges. -/
theorem follows_run (h : start.blocks.Follows first m.blocks) (op : Operation α)
    (hEdit : op.run m = .ok a m') : start.blocks.Follows first m'.blocks := by
  cases op with
  | addBlock | addCodeBlock | addDataBlock | addProxyBlock =>
      obtain ⟨g, hg, rfl⟩ := onBlocks_eq_ok.mp hEdit
      obtain ⟨_, _, _, _, _, rfl⟩ := BlockGraph.addBlock_eq_ok.mp hg
      exact h.of_blocks
  | setBlockAddress =>
      obtain ⟨g, hg, rfl⟩ := onBlocks_eq_ok.mp hEdit
      obtain ⟨_, _, _, _, _, rfl⟩ := BlockGraph.setBlockAddress_eq_ok.mp hg
      exact h.of_blocks
  | addEdge =>
      obtain ⟨g, hg, rfl⟩ := onBlocks_eq_ok.mp hEdit
      exact h.addEdge hg
  | removeEdge =>
      obtain ⟨g, hg, rfl⟩ := onBlocks_eq_ok.mp hEdit
      exact h.removeEdge hg
  | removeBlock =>
      obtain ⟨-, g, hg, rfl⟩ := removeBlock_eq_ok.mp hEdit
      exact h.removeBlock hg
  | setEntryPoint =>
      obtain ⟨-, rfl⟩ := setEntryPoint_eq_ok.mp hEdit
      exact h
  | addSymbol | addSymbolAtEnd =>
      obtain ⟨t, -, rfl⟩ := bindSymbol_eq_ok.mp hEdit
      exact h
  | removeSymbol =>
      obtain ⟨t, -, rfl⟩ := onSymbols_eq_ok.mp hEdit
      exact h
  | addSection =>
      obtain ⟨s, -, rfl⟩ := onSections_eq_ok.mp hEdit
      exact h
  | removeSection id =>
      change m.removeSection id = .ok a m' at hEdit
      obtain ⟨s, -, rfl⟩ := onSections_eq_ok.mp hEdit
      exact h
  | setAux =>
      obtain ⟨-, rfl⟩ := setAux_eq_ok.mp hEdit
      exact h
  | removeAux =>
      obtain ⟨-, rfl⟩ := removeAux_eq_ok.mp hEdit
      exact h

/-- A whole history does to the edges what its steps do. -/
theorem Run.follows (h : start.Obtained first) (run : start.Run given taken now) :
    start.blocks.Follows first now.blocks := by
  induction run with
  | start => exact h.follows
  | change _ op ih => exact (atomic_run op).keeps ih fun _ _ hEdit => follows_run ih op hEdit
  | reload _ hHere hReload hThere ih =>
      rw [hReload.module_eq hHere hThere]
      exact ih.relink
  | move _ id tag ih => exact ih.retag tag

/-- Only an edge that was on no list at the start can be left at a block that goes. -/
theorem Run.stranded (h : start.Obtained first) (run : start.Run given taken now)
    (hEdit : now.removeBlock id = .ok b m') {i : EdgeId} {e : Edge}
    (he : m'.blocks.edge? i = some e) (hAt : e.source = id ∨ e.target = id) :
    i.index < first ∧ ∃ e₀, start.blocks.edge? i = some e₀ ∧
      e₀.source.index = e.source.index ∧ e₀.target.index = e.target.index := by
  have hNow := run.follows h
  obtain ⟨-, g, hg, rfl⟩ := removeBlock_eq_ok.mp hEdit
  obtain ⟨bound, hBound, hListed⟩ := hNow.lists
  have hApart := hListed.apart hg (i := i.index) (e := e)
  obtain ⟨-, -, rfl⟩ := BlockGraph.removeBlock_eq_ok.mp hg
  -- An edge that is on the lists of the block would have kept it, so this one is on none.
  have hBelow : i.index < bound := by
    refine UInt32.not_le.mp fun hOn => ?_
    obtain ⟨hSource, hTarget⟩ := hApart he hOn
    exact hAt.elim (fun hSame => hSource (hSame ▸ rfl)) fun hSame => hTarget (hSame ▸ rfl)
  have hOld := UInt32.lt_of_lt_of_le hBelow hBound
  exact ⟨hOld, hNow.old _ e he hOld⟩

/-- If every edge was on its lists at the start, then every edge is at all times, and the rules of
the module are kept. -/
theorem Run.keeps_listed (h : start.Obtained first) (run : start.Run given taken now)
    (hListed : ∀ i e, start.blocks.edge? i = some e → first ≤ i.index) :
    now.WellFormed ∧ now.blocks.Linked := by
  -- The lists come first and for every state of the history. That the rules are kept, in the second
  -- induction, rests on them at each step.
  have hLinked : ∀ {now : Module} {given taken : List ItemId}, start.Run given taken now →
      now.blocks.Linked := by
    intro now given taken run
    have hNow := run.follows h
    obtain ⟨bound, hBound, hLists⟩ := hNow.lists
    refine hLists.linked_of_le fun i e he => UInt32.not_lt.mp fun hBelow => ?_
    have hOld := UInt32.lt_of_lt_of_le hBelow hBound
    obtain ⟨e₀, he₀, -⟩ := hNow.old i e he hOld
    exact UInt32.not_lt.mpr (hListed ⟨i⟩ e₀ he₀) hOld
  refine ⟨?_, hLinked run⟩
  induction run with
  | start => exact h.wellFormed
  | change prior op ih =>
      exact (atomic_run op).keeps ih fun _ _ hEdit => ih.run_of_linked (hLinked prior) op hEdit
  | reload _ hHere hReload hThere ih =>
      rw [hReload.module_eq hHere hThere]
      exact (sound_relink (wellFormed_stored_iff.mpr ih)).wellFormed
  | move prior id tag ih => exact ih.move_of_linked (hLinked prior) id tag

end Module

namespace Program

variable {p p' : Program} {position : Nat} {m m' : Module} {α : Type} {a : α}

/-- A change of one module keeps the rules of a program if it keeps those of the module. -/
theorem WellFormed.onModule (h : p.WellFormed) (op : Module.Operation α)
    (hEdit : Program.onModule position op.run p = .ok (some a) p')
    (hModule : ∀ m m', p.modules[position]? = some m → op.run m = .ok a m' → m'.WellFormed) :
    p'.WellFormed := by
  have hDistinct : Distinct ((Program.onModule position op.run).after p).modules :=
    distinct_onModule h.distinct
  rw [Edit.after_of_ok hEdit] at hDistinct
  obtain ⟨m, m', hHere, hRun, rfl⟩ := onModule_eq_ok.mp hEdit
  refine ⟨hDistinct, fun x hx => ?_⟩
  rcases List.mem_or_eq_of_mem_set hx with hOld | rfl
  · exact h.modules x hOld
  · exact hModule m _ hHere hRun

/-- A program that keeps its rules is loaded as it is stored. -/
theorem WellFormed.survives (h : p.WellFormed)
    (hSize : (Archive.payload p).length ≤ Archive.payloadLimit) (options : ArchiveOptions) :
    ∃ back, Archive.decode options (Archive.encode p) = .ok back ∧ back.sameContent p = true := by
  refine ⟨_, ?_, p.sameContent_relink_stored⟩
  rw [Archive.decode_encode options hSize, Archive.accept_stored h]

end Program

namespace Module

variable {start now m' : Module} {first : UInt32} {given taken : List ItemId} {id : BlockId}
  {b : Block}

/-- What a removal of a block can leave behind, after any history of a module whose content keeps
the rules. An edge at the block is left only if it was there at the start and on no list, which
happens to edges that are read with a module alone. If there were none of these, no edge is left at
the block, and the module still keeps the rules, and so does every program that has it, which comes
back from its archive. In a module that was stored and loaded every edge is listed again. -/
theorem removeBlock_strands_only_unlisted (hStart : start.Obtained first)
    (run : start.Run given taken now) (hEdit : now.removeBlock id = .ok b m') :
    (∀ i e, m'.blocks.edge? i = some e → e.source = id ∨ e.target = id →
      i.index < first ∧ ∃ e₀, start.blocks.edge? i = some e₀ ∧
        e₀.source.index = e.source.index ∧ e₀.target.index = e.target.index) ∧
    ((∀ i e, start.blocks.edge? i = some e → first ≤ i.index) →
      (∀ i e, m'.blocks.edge? i = some e → e.source ≠ id ∧ e.target ≠ id) ∧
      m'.check = .ok () ∧
      ∀ (p p' : Program) (position : Nat), p.check = .ok () → p.modules[position]? = some now →
        Program.onModule position (Module.removeBlock id) p = .ok (some b) p' →
        p'.check = .ok () ∧ ∀ options, (Archive.payload p').length ≤ Archive.payloadLimit →
          ∃ back, Archive.decode options (Archive.encode p') = .ok back ∧
            back.sameContent p' = true) ∧
    ∀ (p back : Program) (position : Nat) (loaded : Module), p.modules[position]? = some now →
      p.Reloads back → back.modules[position]? = some loaded → loaded.Obtained 0 := by
  refine ⟨fun i e => run.stranded hStart hEdit, fun hListed => ⟨fun i e he => ?_, ?_,
    fun p p' position hCheck hHere hWithin => ?_⟩,
    fun p back position loaded _ hReload hThere => ?_⟩
  · rw [← not_or]
    intro hAt
    obtain ⟨hBelow, e₀, he₀, -⟩ := run.stranded hStart hEdit he hAt
    exact UInt32.not_lt.mpr (hListed i e₀ he₀) hBelow
  · have hNow := run.keeps_listed hStart hListed
    exact check_eq_ok_iff.mpr (hNow.1.run_of_linked hNow.2 (.removeBlock id) hEdit)
  · have hNow := run.keeps_listed hStart hListed
    have hAfter : p'.WellFormed := by
      refine (Program.check_eq_ok_iff.mp hCheck).onModule (.removeBlock id) hWithin
        fun m m' hm hRun => ?_
      cases hHere.symm.trans hm
      exact hNow.1.run_of_linked hNow.2 (.removeBlock id) hRun
    exact ⟨Program.check_eq_ok_iff.mpr hAfter, fun options hSize => hAfter.survives hSize options⟩
  · refine .built (.member (p := back) ?_ (List.mem_of_getElem? hThere))
    rcases hReload with ⟨options, hArchive⟩ | hDocument
    · exact .archive hArchive
    · exact .document hDocument

/-- A module with a jump from one block to another. -/
def jump : Module :=
  let m := build { name := "jump" } default default
  let m := (Operation.addCodeBlock 0x1000 8).run.after m
  let m := (Operation.addCodeBlock 0x2000 8).run.after m
  (Operation.addEdge ⟨default, 0⟩ ⟨default, 1⟩ { kind := .branch }).run.after m

/-- A module as it is read alone from the text in which it is written. -/
theorem obtained_stored {m : Module} (h : m.WellFormed) : m.stored.Obtained m.blocks.nextEdge :=
  .read (Document.readModule?_text Json.Layout.plain_compact m)
    (check_eq_ok_iff.mpr (wellFormed_stored_iff.mpr h))

theorem wellFormed_jump : jump.WellFormed := check_eq_ok_iff.mp (by decide +kernel)

/-- The target of the jump is taken from a module that is read alone, to which a loop was added. The
jump is left. Where the jump was taken out before the module was written, one that is added later
has to go first, and then nothing is left and the module comes back from an archive. -/
theorem removeBlock_strands_only_unlisted_jump :
    let source : BlockId := ⟨default, 0⟩
    let target : BlockId := ⟨default, 1⟩
    let jumps : Edge := ⟨source, target, { kind := .branch }⟩
    let now := (Operation.addEdge source source { kind := .call }).run.after jump.stored
    let cut := (Operation.removeEdge ⟨0⟩).run.after jump
    let again := (Operation.addEdge source target { kind := .branch }).run.after cut.stored
    let free := (Operation.removeEdge ⟨1⟩).run.after again
    jump.stored.Obtained 1 ∧ cut.stored.Obtained 1 ∧
      (∃ b m', now.removeBlock target = .ok b m' ∧ m'.blocks.edge? ⟨0⟩ = some jumps ∧
        (⟨0⟩ : EdgeId).index < 1) ∧
      (∃ e, again.removeBlock target = .error e again) ∧
      ∃ b m', free.removeBlock target = .ok b m' ∧ m'.check = .ok () ∧
        ∀ options, ∃ back, Archive.decode options (Archive.encode { modules := [m'] }) = .ok back ∧
          back.sameContent { modules := [m'] } = true := by
  intro source target jumps now cut again free
  have hJump : jump.stored.Obtained 1 := obtained_stored wellFormed_jump
  have hCut : cut.stored.Obtained 1 :=
    obtained_stored (m := cut) (check_eq_ok_iff.mp (by decide +kernel))
  have hNow : jump.stored.Run _ _ now := Run.start.change (.addEdge source source { kind := .call })
  have hFree : cut.stored.Run _ _ free :=
    (Run.start.change (.addEdge source target { kind := .branch })).change (.removeEdge ⟨1⟩)
  have hFirst : now.removeBlock target = .ok (.code (some 0x2000) 8 0) _ :=
    Edit.eq_ok_of_answer (by decide +kernel)
  have hLast : free.removeBlock target = .ok (.code (some 0x2000) 8 0) _ :=
    Edit.eq_ok_of_answer (by decide +kernel)
  have hRefused : again.removeBlock target = .error (.blockHasEdges target 1) _ :=
    Edit.eq_error_of_answer (by decide +kernel)
  have hSame := atomic_run (.removeBlock target) _ _ _ hRefused
  rw [hSame] at hRefused
  have hLeft : (Edit.after (removeBlock target) now).blocks.edge? ⟨0⟩ = some jumps := by
    decide +kernel
  have hNone : cut.stored.blocks.edges = ∅ := by decide +kernel
  have hOld := (removeBlock_strands_only_unlisted hJump hNow hFirst).1 ⟨0⟩ jumps hLeft (.inr rfl)
  obtain ⟨-, hCheck, hWithin⟩ := (removeBlock_strands_only_unlisted hCut hFree hLast).2.1
    fun i e he => by
      rw [BlockGraph.edge?, hNone] at he
      cases he
  have hBack := (hWithin { modules := [free] } _ 0 (by decide +kernel) rfl
    (Program.onModule_eq_ok.mpr ⟨free, _, rfl, hLast, rfl⟩)).2
  exact ⟨hJump, hCut, ⟨_, _, hFirst, hLeft, hOld.1⟩, ⟨_, hRefused⟩, _, _, hLast, hCheck,
    fun options => hBack options (by decide +kernel)⟩

/-- A block is taken from a module that was read alone and keeps all rules, although a jump to it is
stored. The module that is left breaks a rule, and is refused when it is loaded. -/
theorem removeBlock_strands_jump :
    Document.readModule? (Json.text .compact (Module.form.write jump)) = some jump.stored ∧
      jump.stored.check = .ok () ∧
      ∃ m', jump.stored.removeBlock ⟨default, 1⟩ = .ok (.code (some 0x2000) 8 0) m' ∧
        m'.blocks.edge? ⟨0⟩ = some ⟨⟨default, 0⟩, ⟨default, 1⟩, { kind := .branch }⟩ ∧
        m'.check = .error (.missingEndpoint ⟨0⟩ ⟨default, 1⟩) ∧
        ∀ options, Archive.decode options (Archive.encode { modules := [m'] }) =
          .error (.corrupt (.inconsistent (.inModule "jump"
            (.missingEndpoint ⟨0⟩ ⟨default, 1⟩)))) := by
  refine ⟨Document.readModule?_text Json.Layout.plain_compact jump, by decide +kernel,
    (Operation.removeBlock ⟨default, 1⟩).run.after jump.stored, ?_, by decide +kernel,
    by decide +kernel, fun options => ?_⟩
  · exact Edit.eq_ok_of_answer (by decide +kernel)
  · rw [Archive.decode_encode options (by decide +kernel)]
    exact Archive.accept_eq_error_iff.mpr ⟨_, by decide +kernel, rfl⟩

end Module

end Disassembly
