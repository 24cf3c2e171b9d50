import Disassembly.Proofs.InsertionOrder
import Disassembly.Proofs.Listing

/-! What happens to the sections and blocks of a module, kept as a log. What is stored after any
history can be read off the log alone: it is what was added and not removed, in the order in which
it was added, each block at the address that it was given last. -/
namespace Disassembly

/-- Something that happened to a section or to a block. Blocks are told by their indices, which
stay what they are when the tag of the module changes. -/
inductive Event where
  | sectionAdded (id : SectionId) (x : Section)
  | sectionRemoved (id : SectionId)
  | blockMade (index : UInt32) (b : Block)
  | blockRemoved (index : UInt32)
  | blockMoved (index : UInt32) (address : Option UInt64)
deriving DecidableEq

namespace Block

/-- The block with another address, if it can have one. -/
def movedTo (b : Block) (address : Option UInt64) : Block :=
  (b.withAddress address).toOption.getD b

/-- The block after all these moves. The last one counts. -/
def afterMoves (b : Block) (moves : List (Option UInt64)) : Block :=
  b.movedTo (moves.getLast?.getD b.address)

@[simp] theorem movedTo_movedTo (b : Block) (address address' : Option UInt64) :
    (b.movedTo address).movedTo address' = b.movedTo address' := by
  cases b <;> rfl

@[simp] theorem afterMoves_nil (b : Block) : b.afterMoves [] = b := by
  cases b <;> rfl

/-- A further move acts on the block as the moves so far left it. -/
@[simp] theorem afterMoves_concat (b : Block) (moves : List (Option UInt64))
    (address : Option UInt64) :
    b.afterMoves (moves ++ [address]) = (b.afterMoves moves).movedTo address := by
  simp [afterMoves]

end Block

namespace Event

/-- The slot of what the event is about. -/
def slot : Event → Slot
  | sectionAdded id _ => ⟨.sections, id.index⟩
  | sectionRemoved id => ⟨.sections, id.index⟩
  | blockMade index _ => ⟨.blocks, index⟩
  | blockRemoved index => ⟨.blocks, index⟩
  | blockMoved index _ => ⟨.blocks, index⟩

/-- Whether the event puts something new into its slot. -/
def makes : Event → Bool
  | sectionAdded .. => true
  | blockMade .. => true
  | _ => false

def added? : Event → Option (SectionId × Section)
  | sectionAdded id x => some (id, x)
  | _ => none

def withdrawn? : Event → Option SectionId
  | sectionRemoved id => some id
  | _ => none

def made? : Event → Option (UInt32 × Block)
  | blockMade index b => some (index, b)
  | _ => none

def removed? : Event → Option UInt32
  | blockRemoved index => some index
  | _ => none

/-- Where the event moves the block with this index, if it does. -/
def movedTo? (index : UInt32) : Event → Option (Option UInt64)
  | blockMoved index' address => if index' = index then some address else none
  | _ => none

/-- What the event does to a list of sections. -/
def onSections : Event → List (SectionId × Section) → List (SectionId × Section)
  | sectionAdded id x, l => l ++ [(id, x)]
  | sectionRemoved id, l => l.filter (·.1 ≠ id)
  | _, l => l

/-- What the event does to a block that is there. -/
def onBlock : Event → UInt32 × Block → UInt32 × Block
  | blockMoved index address, x => if x.1 = index then (x.1, x.2.movedTo address) else x
  | _, x => x

/-- What the event does to a list of blocks. -/
def onBlocks : Event → List (UInt32 × Block) → List (UInt32 × Block)
  | blockMade index b, l => l ++ [(index, b)]
  | blockRemoved index, l => l.filter (·.1 ≠ index)
  | blockMoved index address, l => l.map (blockMoved index address).onBlock
  | _, l => l

end Event

/-- What is left of `came`, in its order, when everything under one of the keys `gone` is taken
out. -/
def remaining {κ α : Type} [DecidableEq κ] (came : List (κ × α)) (gone : List κ) : List (κ × α) :=
  came.filter fun x => x.1 ∉ gone

/-- The sections that a log leaves, with those that were there before it. -/
def sectionsTold (before : List (SectionId × Section)) (log : List Event) :
    List (SectionId × Section) :=
  remaining (before ++ log.filterMap Event.added?) (log.filterMap Event.withdrawn?)

/-- A block after all that a log tells of it. -/
def blockTold (log : List Event) (x : UInt32 × Block) : UInt32 × Block :=
  (x.1, x.2.afterMoves (log.filterMap (Event.movedTo? x.1)))

/-- The blocks that a log leaves, with those that were there before it. -/
def blocksTold (before : List (UInt32 × Block)) (log : List Event) : List (UInt32 × Block) :=
  (remaining (before ++ log.filterMap Event.made?) (log.filterMap Event.removed?)).map
    (blockTold log)

section Remaining

variable {κ α : Type} [DecidableEq κ] {came : List (κ × α)} {gone : List κ} {k : κ}

@[simp] theorem remaining_nil (came : List (κ × α)) : remaining came [] = came := by
  simp [remaining]

/-- An entry whose key was never taken out remains, behind all others. -/
theorem remaining_concat (h : k ∉ gone) (v : α) :
    remaining (came ++ [(k, v)]) gone = remaining came gone ++ [(k, v)] := by
  simp [remaining, h]

/-- Taking out one more key takes its entries out of what remained. -/
theorem remaining_of_gone (came : List (κ × α)) (gone : List κ) (k : κ) :
    remaining came (gone ++ [k]) = (remaining came gone).filter (·.1 ≠ k) := by
  rw [remaining, remaining, List.filter_filter]
  refine List.filter_congr fun x _ => ?_
  rw [← Bool.decide_and, decide_eq_decide, List.mem_append, List.mem_singleton, not_or, and_comm]

end Remaining

section Reading

/-! A log is read event by event, as long as nothing is added to a slot that was in use. -/

variable {log : List Event} {e : Event}

theorem sectionsTold_nil (before : List (SectionId × Section)) :
    sectionsTold before [] = before := by
  simp [sectionsTold]

theorem blocksTold_nil (before : List (UInt32 × Block)) : blocksTold before [] = before := by
  have hTold : blockTold [] = id := funext fun x => by simp [blockTold]
  simp [blocksTold, hTold]

/-- A log without events about a section does not take that section out. -/
theorem withdrawn_apart {id : SectionId} (h : ∀ e ∈ log, e.slot ≠ ⟨.sections, id.index⟩) :
    id ∉ log.filterMap Event.withdrawn? := by
  intro hMem
  obtain ⟨e, he, hId⟩ := List.mem_filterMap.mp hMem
  cases e with
  | sectionRemoved id' => cases hId; exact h _ he rfl
  | sectionAdded | blockMade | blockRemoved | blockMoved => cases hId

/-- A log without events about a block does not take that block out. -/
theorem removed_apart {index : UInt32} (h : ∀ e ∈ log, e.slot ≠ ⟨.blocks, index⟩) :
    index ∉ log.filterMap Event.removed? := by
  intro hMem
  obtain ⟨e, he, hIndex⟩ := List.mem_filterMap.mp hMem
  cases e with
  | blockRemoved index' => cases hIndex; exact h _ he rfl
  | sectionAdded | sectionRemoved | blockMade | blockMoved => cases hIndex

/-- A log without events about a block does not move that block. -/
theorem moves_apart {index : UInt32} (h : ∀ e ∈ log, e.slot ≠ ⟨.blocks, index⟩) :
    log.filterMap (Event.movedTo? index) = [] := by
  refine List.filterMap_eq_nil_iff.mpr fun e he => ?_
  cases e with
  | blockMoved index' address =>
      refine if_neg ?_
      rintro rfl
      exact h _ he rfl
  | sectionAdded | sectionRemoved | blockMade | blockRemoved => rfl

/-- The sections told by a longer log are those told before, changed by the last event. An addition
must be to a slot that the log has not used. -/
theorem sectionsTold_concat (before : List (SectionId × Section))
    (hFresh : e.makes = true → ∀ e' ∈ log, e'.slot ≠ e.slot) :
    sectionsTold before (log ++ [e]) = e.onSections (sectionsTold before log) := by
  rw [sectionsTold, sectionsTold, List.filterMap_append, List.filterMap_append]
  cases e with
  | sectionAdded id x =>
      change remaining (before ++ (_ ++ [(id, x)])) (_ ++ []) = _
      rw [List.append_nil, ← List.append_assoc]
      exact remaining_concat (withdrawn_apart (hFresh rfl)) x
  | sectionRemoved id =>
      change remaining (before ++ (_ ++ [])) (_ ++ [id]) = _
      rw [List.append_nil]
      exact remaining_of_gone _ _ id
  | blockMade | blockRemoved | blockMoved =>
      change remaining (before ++ (_ ++ [])) (_ ++ []) = _
      rw [List.append_nil, List.append_nil]
      rfl

/-- A block told by a longer log is the one told before, changed by the last event. -/
theorem blockTold_concat (log : List Event) (e : Event) (x : UInt32 × Block) :
    blockTold (log ++ [e]) x = e.onBlock (blockTold log x) := by
  rw [blockTold, List.filterMap_append]
  cases e with
  | blockMoved index address =>
      by_cases hIndex : x.1 = index
      · simp [blockTold, Event.movedTo?, Event.onBlock, hIndex]
      · simp [blockTold, Event.movedTo?, Event.onBlock, hIndex, Ne.symm hIndex]
  | sectionAdded | sectionRemoved | blockMade | blockRemoved =>
      change (x.1, x.2.afterMoves (_ ++ [])) = _
      rw [List.append_nil]
      rfl

/-- The blocks told by a longer log are those told before, changed by the last event. An addition
must be to a slot that the log has not used, or moves of an earlier block there would be applied to
the new one. -/
theorem blocksTold_concat (before : List (UInt32 × Block))
    (hFresh : e.makes = true → ∀ e' ∈ log, e'.slot ≠ e.slot) :
    blocksTold before (log ++ [e]) = e.onBlocks (blocksTold before log) := by
  have hTold : blockTold (log ++ [e]) = e.onBlock ∘ blockTold log :=
    funext (blockTold_concat log e)
  rw [blocksTold, blocksTold, hTold, ← List.map_map, List.filterMap_append, List.filterMap_append]
  cases e with
  | blockMade index b =>
      change List.map id (List.map _ (remaining (before ++ (_ ++ [(index, b)])) (_ ++ []))) = _
      rw [List.map_id, List.append_nil, ← List.append_assoc,
        remaining_concat (removed_apart (hFresh rfl)), List.map_append]
      simp [blockTold, moves_apart (hFresh rfl), Event.onBlocks]
  | blockRemoved index =>
      change List.map id (List.map _ (remaining (before ++ (_ ++ [])) (_ ++ [index]))) = _
      rw [List.map_id, List.append_nil, remaining_of_gone, Event.onBlocks, List.filter_map]
      rfl
  | blockMoved index address =>
      change List.map _ (List.map _ (remaining (before ++ (_ ++ [])) (_ ++ []))) = _
      rw [List.append_nil, List.append_nil]
      rfl
  | sectionAdded | sectionRemoved =>
      change List.map id (List.map _ (remaining (before ++ (_ ++ [])) (_ ++ []))) = _
      rw [List.map_id, List.append_nil, List.append_nil]
      rfl

end Reading

namespace Module

variable {m m' start now : Module} {log : List Event} {α : Type} {a : α}

/-- What a change tells of sections and blocks when it succeeds with this answer. A section that
is not there can be removed, and there is nothing to tell then. -/
def Operation.events : {α : Type} → Operation α → α → List Event
  | _, .addBlock kind attributes, id => made kind attributes id
  | _, .addCodeBlock address size, id => made .code { address, size } id
  | _, .addDataBlock address size, id => made .data { address, size } id
  | _, .addProxyBlock, id => made .proxy {} id
  | _, .setBlockAddress id address, _ => [.blockMoved id.index address]
  | _, .removeBlock id, _ => [.blockRemoved id.index]
  | _, .addSection x, id => [.sectionAdded id x]
  | _, .removeSection id, some _ => [.sectionRemoved id]
  | _, _, _ => []
where
  made (kind : BlockKind) (attributes : BlockAttributes) (id : BlockId) : List Event :=
    match Block.ofAttributes kind attributes with
    | .ok b => [.blockMade id.index b]
    | .error _ => []

/-- What a change that succeeds does to the sections and blocks of a module, told by an event at
most. What is made gets a slot to which the counter had yet to come. -/
inductive Tells (m m' : Module) : List Event → Prop where
  | nothing (sections : m'.sections.sectionList = m.sections.sectionList)
      (blocks : m'.blocks.blocks.entries = m.blocks.blocks.entries) : Tells m m' []
  | event {e : Event} (sections : m'.sections.sectionList = e.onSections m.sections.sectionList)
      (blocks : m'.blocks.blocks.entries = e.onBlocks m.blocks.blocks.entries)
      (fresh : e.makes = true → m.counter e.slot.store ≤ e.slot.index)
      (passed : e.slot.index < m'.counter e.slot.store) : Tells m m' [e]

/-- What a change tells in a state, nothing if it fails. -/
def Operation.eventsAt (op : Operation α) (m : Module) : List Event :=
  match op.run.answer m with
  | .ok a => op.events a
  | .error _ => []

/-- A history of a module, with the log of what happened to its sections and blocks. A change that
fails leaves nothing in the log, and neither does a reload or a move to another identity. -/
inductive Recorded (start : Module) : List Event → Module → Prop where
  | start : Recorded start [] start
  | change {α : Type} {log : List Event} {now : Module} (prior : Recorded start log now)
      (op : Operation α) : Recorded start (log ++ op.eventsAt now) (op.run.after now)
  | reload {log : List Event} {now now' : Module} {p back : Program} {position : Nat}
      (prior : Recorded start log now) (hHere : p.modules[position]? = some now)
      (hReload : p.Reloads back) (hThere : back.modules[position]? = some now') :
      Recorded start log now'
  | move {log : List Event} {now : Module} (prior : Recorded start log now) (id : ModuleId)
      (tag : GraphTag) : Recorded start log (now.withIdentity id tag)

/-- The same history, with the ids in the place of the events. -/
theorem Recorded.run (h : start.Recorded log now) : ∃ given taken, start.Run given taken now := by
  induction h with
  | start => exact ⟨_, _, .start⟩
  | change _ op ih =>
      obtain ⟨given, taken, run⟩ := ih
      exact ⟨_, _, run.change op⟩
  | reload _ hHere hReload hThere ih =>
      obtain ⟨given, taken, run⟩ := ih
      exact ⟨_, _, run.reload hHere hReload hThere⟩
  | move _ id tag ih =>
      obtain ⟨given, taken, run⟩ := ih
      exact ⟨_, _, run.move id tag⟩

/-- Along a record a sound module stays sound, which every event of it relies on. -/
theorem Recorded.sound (hStart : start.Sound) (h : start.Recorded log now) : now.Sound := by
  obtain ⟨_, _, run⟩ := h.run
  exact (run.evolves hStart).1

/-- What is stored is what the log tells. -/
structure AsTold (start : Module) (log : List Event) (now : Module) : Prop where
  sections : now.sections.sectionList = sectionsTold start.sections.sectionList log
  blocks : now.blocks.blocks.entries = blocksTold start.blocks.blocks.entries log
  passed : ∀ e ∈ log, e.slot.index < now.counter e.slot.store

theorem AsTold.refl (start : Module) : start.AsTold [] start where
  sections := (sectionsTold_nil _).symm
  blocks := (blocksTold_nil _).symm
  passed := nofun

/-- One step carries a log on. Counters do not go back, so nothing is made in a slot of which the
log has told before. -/
theorem AsTold.concat {events : List Event} (h : start.AsTold log m)
    (hCounter : ∀ store, m.counter store ≤ m'.counter store) (hTells : m.Tells m' events) :
    start.AsTold (log ++ events) m' := by
  have hPassed : ∀ e ∈ log, e.slot.index < m'.counter e.slot.store := fun e he =>
    UInt32.lt_of_lt_of_le (h.passed e he) (hCounter _)
  cases hTells with
  | nothing hSections hBlocks =>
      rw [List.append_nil]
      exact ⟨hSections.trans h.sections, hBlocks.trans h.blocks, hPassed⟩
  | @event e hSections hBlocks hFresh hNow =>
      have hApart : e.makes = true → ∀ e' ∈ log, e'.slot ≠ e.slot := by
        intro hMakes e' he' hSlot
        exact UInt32.not_lt.mpr (hFresh hMakes) (hSlot ▸ h.passed e' he')
      refine ⟨?_, ?_, List.forall_mem_append.mpr ⟨hPassed, List.forall_mem_singleton.mpr hNow⟩⟩
      · rw [hSections, h.sections, sectionsTold_concat _ hApart]
      · rw [hBlocks, h.blocks, blocksTold_concat _ hApart]

/-- What is derived from the content, and what an identity makes of it, adds nothing to a log. -/
theorem AsTold.congr (h : start.AsTold log m)
    (hSections : m'.sections.sectionList = m.sections.sectionList)
    (hBlocks : m'.blocks.blocks.entries = m.blocks.blocks.entries)
    (hCounter : ∀ store, m'.counter store = m.counter store) : start.AsTold log m' := by
  have hSame :=
    h.concat (fun store => hCounter store ▸ UInt32.le_refl _) (.nothing hSections hBlocks)
  rwa [List.append_nil] at hSame

/-- A module alone in a program can be stored and loaded at any time. -/
theorem Recorded.reloadAlone (hStart : start.Sound) (h : start.Recorded log now) :
    start.Recorded log now.stored.relink := by
  have hWellFormed := (h.sound hStart).wellFormed.alone
  have hHere : (Program.modules { modules := [now] })[0]? = some now := rfl
  exact h.reload hHere (Program.reloads_of_wellFormed hWellFormed) rfl

end Module

end Disassembly
