import Disassembly.Proofs.DocumentRoundTrip
import Disassembly.Proofs.ItemEdits
import Disassembly.Proofs.Metering

/-! Ids over time. A module may be changed in any way, with or without success, moved to another
identity, and stored and loaded as part of a program, any number of times and in any order. No
index is ever given out twice on the way, and nothing is ever overwritten. -/
namespace Disassembly

namespace Program

/-- The program was stored, as an archive or as a document, and loaded again. -/
def Reloads (p back : Program) : Prop :=
  (∃ options, Archive.decode options (Archive.encode p) = .ok back) ∨
    Document.decode (Document.encode p) = .ok back

/-- Loading gives what was stored, with everything derived from it rebuilt. -/
theorem Reloads.eq_relink {p back : Program} (h : p.Reloads back) : back = p.stored.relink := by
  have hAccept : Archive.accept p.stored = .ok back := by
    rcases h with ⟨options, hArchive⟩ | hDocument
    · exact Archive.accept_of_decode_encode hArchive
    · rwa [Document.decode_encode] at hDocument
  exact (Archive.accept_eq_ok_iff.mp hAccept).2

/-- The module at a position of a program that was stored and loaded. -/
theorem Reloads.module_eq {p back : Program} {position : Nat} {m m' : Module} (h : p.Reloads back)
    (hHere : p.modules[position]? = some m) (hThere : back.modules[position]? = some m') :
    m' = m.stored.relink := by
  rw [h.eq_relink] at hThere
  simpa [stored, relink, hHere, eq_comm] using hThere

/-- Every program that keeps its rules can be stored and loaded. -/
theorem reloads_of_wellFormed {p : Program} (h : p.WellFormed) : p.Reloads p.stored.relink := by
  refine .inr ?_
  rw [Document.decode_encode, Archive.accept_stored h]

end Program

namespace Module

variable {m m' start now later : Module} {given taken given' taken' : List ItemId}

/-- What is derived from the content of a module has no ids. -/
theorem WellFormed.evolves_of_stored (h : m.WellFormed) (hStored : m'.stored = m.stored) :
    m.Evolves [] [] m' := by
  refine (Change.none ?_ (fun store => ?_) fun slot => ?_).evolves h
  · rw [← graphTag_stored, hStored, graphTag_stored]
  · rw [← counter_stored, hStored, counter_stored]
  · rw [← slot?_stored, hStored, slot?_stored]

/-- The module at a position of a program that is stored and loaded. -/
theorem Sound.reloaded {p back : Program} {position : Nat} (h : m.Sound)
    (hHere : p.modules[position]? = some m) (hReload : p.Reloads back)
    (hThere : back.modules[position]? = some m') : m'.Sound ∧ m.Evolves [] [] m' := by
  obtain rfl := hReload.module_eq hHere hThere
  refine ⟨sound_relink (wellFormed_stored_iff.mpr h.wellFormed), ?_⟩
  exact h.wellFormed.evolves_of_stored (stored_relink m.stored)

/-- A move to another identity leaves every thing in its slot and every counter where it is. -/
theorem Sound.moved (h : m.Sound) (id : ModuleId) (tag : GraphTag) :
    (m.withIdentity id tag).Sound ∧ m.Evolves [] [] (m.withIdentity id tag) := by
  refine ⟨sound_withIdentity h id tag, ?_⟩
  rw [withIdentity_eq_under h.wellFormed]
  exact evolves_altered (counter_under m id tag) (slot?_under m id tag) fun _ _ _ => .rfl

/-- The ids that a change gives out in a state, none if it fails. -/
def Operation.givenAt {α : Type} (op : Operation α) (m : Module) : List ItemId :=
  match op.run.answer m with
  | .ok a => op.gives a
  | .error _ => []

/-- The ids that a change takes back in a state, none if it fails. -/
def Operation.takenAt {α : Type} (op : Operation α) (m : Module) : List ItemId :=
  match op.run.answer m with
  | .ok a => op.takes a
  | .error _ => []

/-- One step, whether or not it succeeds. -/
theorem Sound.changed {α : Type} (h : m.Sound) (op : Operation α) :
    (op.run.after m).Sound ∧ m.Evolves (op.givenAt m) (op.takenAt m) (op.run.after m) := by
  refine ⟨sound_after h op, ?_⟩
  unfold Operation.givenAt Operation.takenAt Edit.answer Edit.after
  cases hRun : op.run m with
  | ok a m' => exact (change_run op hRun).evolves h.wellFormed
  | error e m' =>
      cases atomic_run op m e m' hRun
      exact h.wellFormed.evolves_of_stored rfl

/-- A history of a module, with the ids given out and taken back in the course of it. -/
inductive Run (start : Module) : List ItemId → List ItemId → Module → Prop where
  | start : Run start [] [] start
  | change {α : Type} {given taken : List ItemId} {now : Module}
      (prior : Run start given taken now) (op : Operation α) :
      Run start (given ++ op.givenAt now) (taken ++ op.takenAt now) (op.run.after now)
  | reload {given taken : List ItemId} {now now' : Module} {p back : Program} {position : Nat}
      (prior : Run start given taken now) (hHere : p.modules[position]? = some now)
      (hReload : p.Reloads back) (hThere : back.modules[position]? = some now') :
      Run start given taken now'
  | move {given taken : List ItemId} {now : Module} (prior : Run start given taken now)
      (id : ModuleId) (tag : GraphTag) : Run start given taken (now.withIdentity id tag)

/-- A whole history does to the slots what its steps do, one after the other. The rules of a
module are carried along, since every step relies on them. -/
theorem Run.evolves (h : start.Sound) (run : start.Run given taken now) :
    now.Sound ∧ start.Evolves given taken now := by
  induction run with
  | start => exact ⟨h, h.wellFormed.evolves_of_stored rfl⟩
  | change _ op ih =>
      obtain ⟨hSound, hStep⟩ := ih.1.changed op
      exact ⟨hSound, ih.2.trans hStep⟩
  | reload _ hHere hReload hThere ih =>
      obtain ⟨hSound, hStep⟩ := ih.1.reloaded hHere hReload hThere
      exact ⟨hSound, ih.2.trans_nil hStep⟩
  | move _ id tag ih =>
      obtain ⟨hSound, hStep⟩ := ih.1.moved id tag
      exact ⟨hSound, ih.2.trans_nil hStep⟩

/-- Ids are never reused and never overwrite. Of any history from `start` through `now` to
`later`, no two ids that were given out share a slot, and none has a slot that was in use at the
start, whatever tags the module had meanwhile. A change that succeeds puts what it adds into an
empty slot. What is there at `now` is there at `later` unless it was removed, and what was removed
is nowhere to be found. Counters never go back, and where one has reached its end nothing is
added any more. -/
theorem ids_never_reused (hStart : start.Reachable) (hPast : start.Run given taken now)
    (hNext : now.Run given' taken' later) :
    ((given ++ given').map ItemId.slot).Nodup ∧
    (∀ id ∈ given ++ given', start.slot? id.slot = none) ∧
    (∀ {α : Type} (op : Operation α) (a : α) (after : Module), op.run now = .ok a after →
      ∀ id ∈ op.gives a, now.slot? id.slot = none ∧ id.slot ∉ given.map ItemId.slot ∧
        ∃ x, after.item? id = some x) ∧
    (∀ id x, now.item? id = some x → id.slot ∉ taken'.map ItemId.slot →
      ∃ y, later.item? (id.under later.graphTag) = some y ∧
        y.SameAs (x.under later.graphTag)) ∧
    (∀ id x, now.item? id = some x → id.slot ∉ taken'.map ItemId.slot →
      later.graphTag = now.graphTag → ∃ y, later.item? id = some y ∧ y.SameAs x) ∧
    (∀ id, id.slot ∈ taken.map ItemId.slot → later.item? id = none) ∧
    (∀ store, start.counter store ≤ now.counter store ∧
      now.counter store ≤ later.counter store) ∧
    ∀ {α : Type} (op : Operation α) (store : Store), op.store? = some store →
      now.counter store = 0xffffffff → ∃ e, op.run now = .error e now := by
  obtain ⟨hNow, hFirst⟩ := hPast.evolves hStart.sound
  obtain ⟨-, hSecond⟩ := hNext.evolves hNow
  -- What was given out and taken back on both stretches is read off the two together.
  have hWhole := hFirst.trans hSecond
  refine ⟨hWhole.distinct, fun id hid => ?_, fun op a after hRun id hid => ?_,
    fun id x hx hLive => ?_, fun id x hx hLive hTag => ?_, fun id hid => ?_,
    fun store => ⟨hFirst.counter store, hSecond.counter store⟩,
    fun op store hStore hFull => run_of_exhausted hNow.wellFormed hStore hFull⟩
  · have hLow := (hWhole.fresh id.slot (List.mem_map_of_mem hid)).1
    exact hStart.sound.wellFormed.slot?_eq_none hLow
  · have hChange := change_run op hRun
    have hLow := ((hChange.evolves hNow.wellFormed).fresh id.slot (List.mem_map_of_mem hid)).1
    refine ⟨hNow.wellFormed.slot?_eq_none hLow, fun hGiven => ?_, hChange.denotes id hid⟩
    exact UInt32.not_lt.mpr hLow (hFirst.fresh id.slot hGiven).2
  · obtain ⟨hSlot, -⟩ := slot?_of_item? hx
    rw [item?_under]
    exact hSecond.kept id.slot x hSlot hLive
  · obtain ⟨hSlot, hOwn⟩ := slot?_of_item? hx
    have hKept := hSecond.kept id.slot x hSlot hLive
    rwa [← item?_under, hTag, hOwn, hNow.wellFormed.item_under hSlot] at hKept
  · have hTaken : id.slot ∈ (taken ++ taken').map ItemId.slot := by
      rw [List.map_append]
      exact List.mem_append_left _ hid
    refine Option.eq_none_iff_forall_ne_some.mpr fun x hx => ?_
    have hNone := (hWhole.gone id.slot hTaken).2
    rw [(slot?_of_item? hx).1] at hNone
    cases hNone

/-- One module alone makes a program. -/
theorem WellFormed.alone (h : m.WellFormed) : Program.WellFormed { modules := [m] } :=
  ⟨⟨List.nodup_singleton _, List.nodup_singleton _⟩, List.forall_mem_singleton.mpr h⟩

/-- A module alone in a program can be stored and loaded at any time. -/
theorem Run.reloadAlone (h : start.Sound) (run : start.Run given taken now) :
    start.Run given taken now.stored.relink := by
  have hReload := Program.reloads_of_wellFormed (run.evolves h).1.wellFormed.alone
  have hHere : (Program.modules { modules := [now] })[0]? = some now := rfl
  exact run.reload hHere hReload rfl

/-- A block is added and removed. Then the module is stored, loaded and moved, and the next block
gets another index. The removed one is not found under the new tag either, and the first block of
the module still is. -/
theorem ids_never_reused_recursion :
    let start := recursion default default
    let tag : GraphTag := ⟨.ofLeading [1]⟩
    let now :=
      (Operation.removeBlock ⟨default, 1⟩).run.after (Operation.addProxyBlock.run.after start)
    let later :=
      (Operation.addDataBlock 0 4).run.after (now.stored.relink.withIdentity default tag)
    start.Reachable ∧ start.Run [.ofBlock ⟨default, 1⟩] [.ofBlock ⟨default, 1⟩] now ∧
      now.Run [.ofBlock ⟨tag, 2⟩] [] later ∧ later.item? (.ofBlock ⟨tag, 1⟩) = none ∧
      ∃ y, later.item? (.ofBlock ⟨tag, 0⟩) = some y ∧
        y.SameAs (.ofBlock (.code (some 0x1000) 16 0)) := by
  intro start tag now later
  have hStart : start.Reachable := reachable_recursion default default
  have hPast : start.Run [.ofBlock ⟨default, 1⟩] [.ofBlock ⟨default, 1⟩] now :=
    (Run.start.change .addProxyBlock).change (.removeBlock ⟨default, 1⟩)
  have hNow := (hPast.evolves hStart.sound).1
  have hNext : now.Run [.ofBlock ⟨tag, 2⟩] [] later :=
    ((Run.start.reloadAlone hNow).move default tag).change (.addDataBlock 0 4)
  obtain ⟨-, -, -, hKept, -, hGone, -⟩ := ids_never_reused hStart hPast hNext
  have hFirst : now.item? (.ofBlock ⟨default, 0⟩) =
      some (.ofBlock (.code (some 0x1000) 16 0)) := rfl
  have hRemoved : (ItemId.ofBlock ⟨tag, 1⟩).slot ∈
      [ItemId.ofBlock ⟨default, 1⟩].map ItemId.slot := List.mem_singleton_self _
  have hAway := hGone _ hRemoved
  have hStill := hKept _ _ hFirst nofun
  exact ⟨hStart, hPast, hNext, hAway, hStill⟩

end Module

end Disassembly
