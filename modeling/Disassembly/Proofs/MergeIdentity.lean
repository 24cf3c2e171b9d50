import Disassembly.Program.Merge
import Disassembly.Proofs.WellFormed
import Mathlib.Data.List.Forall2

/-! The identities that modules have after a merge. Those that keep theirs and those that are
moved to drawn ones are distinct from all that were there before and from each other. -/
namespace Disassembly

/-- The second module is the first after any number of moves to other identities. -/
inductive Module.Moved (m : Module) : Module → Prop where
  | here : Moved m m
  | again {m' : Module} (prior : Moved m m') (id : ModuleId) (tag : GraphTag) :
      Moved m (m'.withIdentity id tag)

theorem Module.Moved.trans {a b c : Module} (first : Moved a b) (second : Moved b c) :
    Moved a c := by
  induction second with
  | here => exact first
  | again _ id tag ih => exact ih.again id tag

/-- Every module that comes out is one that went in, possibly under another identity. -/
theorem Module.exists_moved_of_mem {modules moved : List Module}
    (h : List.Forall₂ Module.Moved modules moved) {m' : Module} (hm : m' ∈ moved) :
    ∃ m ∈ modules, m.Moved m' := by
  induction h with
  | nil => cases hm
  | @cons m first modules moved hFirst _ ih =>
      rcases List.mem_cons.mp hm with rfl | hm
      · exact ⟨m, List.mem_cons_self .., hFirst⟩
      · obtain ⟨n, hn, hMoved⟩ := ih hm
        exact ⟨n, List.mem_cons_of_mem _ hn, hMoved⟩

namespace Taken

variable {t : Taken}

/-- A module does not collide when neither its id nor its tag is taken. -/
theorem collision?_eq_none_iff {m : Module} :
    t.collision? m = none ↔ m.id ∉ t.ids ∧ m.graphTag ∉ t.tags := by
  unfold collision?
  by_cases hId : t.ids.contains m.id = true
  · simp only [hId, if_true, reduceCtorEq, false_iff]
    exact fun h => h.1 (List.contains_iff_mem.mp hId)
  by_cases hTag : t.tags.contains m.graphTag = true
  · simp only [hId, hTag, if_true, Bool.false_eq_true, if_false, reduceCtorEq, false_iff]
    exact fun h => h.2 (List.contains_iff_mem.mp hTag)
  · simp only [hId, hTag, Bool.false_eq_true, if_false, true_iff]
    exact ⟨fun h => hId (List.contains_iff_mem.mpr h), fun h => hTag (List.contains_iff_mem.mpr h)⟩

/-- All identities can be kept exactly when they are distinct and none is taken. -/
theorem accept_eq_ok_iff {modules : List Module} :
    t.accept modules = .ok () ↔ Program.Distinct modules ∧
      ∀ m ∈ modules, m.id ∉ t.ids ∧ m.graphTag ∉ t.tags := by
  induction modules generalizing t with
  | nil => simpa [accept] using Program.distinct_nil
  | cons m rest ih =>
      rw [Program.distinct_cons_iff, accept]
      cases hCollision : t.collision? m with
      | some e =>
          simp only [reduceCtorEq, false_iff]
          rintro ⟨-, hFree⟩
          rw [collision?_eq_none_iff.mpr (hFree m (List.mem_cons_self ..))] at hCollision
          cases hCollision
      | none =>
          have hHead := collision?_eq_none_iff.mp hCollision
          simp only [ih, add, List.mem_cons, not_or]
          constructor
          · rintro ⟨hRest, hFree⟩
            refine ⟨⟨hRest, fun n hn => ⟨(hFree n hn).1.1, (hFree n hn).2.1⟩⟩, ?_⟩
            rintro n (rfl | hn)
            · exact hHead
            · exact ⟨(hFree n hn).1.2, (hFree n hn).2.2⟩
          · rintro ⟨⟨hRest, hApart⟩, hFree⟩
            exact ⟨hRest, fun n hn => ⟨⟨(hApart n hn).1, (hFree n (.inr hn)).1⟩,
              (hApart n hn).2, (hFree n (.inr hn)).2⟩⟩

/-- An id that is drawn is not taken: draws that are taken are passed over. -/
theorem freshId?_eq_some {draws rest : List ModuleId} {id : ModuleId}
    (h : t.freshId? draws = some (id, rest)) : id ∉ t.ids := by
  induction draws with
  | nil => cases h
  | cons head more ih =>
      rw [freshId?] at h
      by_cases hTaken : t.ids.contains head = true
      · rw [if_pos hTaken] at h
        exact ih h
      · rw [if_neg hTaken] at h
        cases h
        exact fun hm => hTaken (List.contains_iff_mem.mpr hm)

/-- The id that a marked module is to have. -/
def markedId (entry : Module × Option ModuleId) : ModuleId := entry.2.getD entry.1.id

/-- The tags of the modules that are not marked. -/
def keptTags (marked : List (Module × Option ModuleId)) : List GraphTag :=
  (marked.filter fun entry => entry.2.isNone).map fun entry => entry.1.graphTag

/-- What marking brings about. The ids that the modules are to have are new and distinct, and
so are the tags that are kept; all of them are taken afterwards. -/
structure Marked (t : Taken) (modules : List Module) (marked : List (Module × Option ModuleId))
    (t' : Taken) : Prop where
  modules : marked.map Prod.fst = modules
  ids : (marked.map markedId).Nodup
  newIds : ∀ id ∈ marked.map markedId, id ∉ t.ids
  tags : (keptTags marked).Nodup
  newTags : ∀ tag ∈ keptTags marked, tag ∉ t.tags
  takenTags : ∀ tag, tag ∈ t.tags ∨ tag ∈ keptTags marked → tag ∈ t'.tags

/-- With no modules there is nothing to mark. -/
theorem marked_nil (t : Taken) : Marked t [] [] t where
  modules := rfl
  ids := .nil
  newIds id h := by cases h
  tags := .nil
  newTags tag h := by cases h
  takenTags tag h := h.resolve_right (by simp [keptTags])

/-- A module that does not collide keeps its identity, and for those behind it that identity is
taken. -/
theorem Marked.keep {m : Module} {rest : List Module} {t' : Taken}
    {marked : List (Module × Option ModuleId)} (hFree : m.id ∉ t.ids ∧ m.graphTag ∉ t.tags)
    (h : Marked (t.add m) rest marked t') : Marked t (m :: rest) ((m, none) :: marked) t' where
  modules := congrArg (m :: ·) h.modules
  ids := List.nodup_cons.mpr ⟨fun hm => h.newIds _ hm (List.mem_cons_self ..), h.ids⟩
  newIds id hm := by
    rcases List.mem_cons.mp hm with rfl | hm
    · exact hFree.1
    · exact fun hOld => h.newIds id hm (List.mem_cons_of_mem _ hOld)
  tags := List.nodup_cons.mpr ⟨fun hm => h.newTags _ hm (List.mem_cons_self ..), h.tags⟩
  newTags tag hm := by
    rcases List.mem_cons.mp hm with rfl | hm
    · exact hFree.2
    · exact fun hOld => h.newTags tag hm (List.mem_cons_of_mem _ hOld)
  takenTags tag hm := by
    apply h.takenTags
    rcases hm with hOld | hm
    · exact .inl (List.mem_cons_of_mem _ hOld)
    · rcases List.mem_cons.mp hm with rfl | hm
      · exact .inl (List.mem_cons_self ..)
      · exact .inr hm

/-- A module that collides gets a free id. Its tag is left for later, so no tag is taken yet. -/
theorem Marked.replace {m : Module} {rest : List Module} {t' : Taken} {id : ModuleId}
    {marked : List (Module × Option ModuleId)} (hFree : id ∉ t.ids)
    (h : Marked { t with ids := id :: t.ids } rest marked t') :
    Marked t (m :: rest) ((m, some id) :: marked) t' where
  modules := congrArg (m :: ·) h.modules
  ids := List.nodup_cons.mpr ⟨fun hm => h.newIds _ hm (List.mem_cons_self ..), h.ids⟩
  newIds other hm := by
    rcases List.mem_cons.mp hm with rfl | hm
    · exact hFree
    · exact fun hOld => h.newIds other hm (List.mem_cons_of_mem _ hOld)
  tags := h.tags
  newTags := h.newTags
  takenTags := h.takenTags

/-- Marking succeeds step by step, by induction on the modules with what is taken so far. -/
theorem marked_of_mark {modules : List Module} {draws rest : List ModuleId} {t' : Taken}
    {marked : List (Module × Option ModuleId)}
    (h : t.mark draws modules = some (marked, t', rest)) : Marked t modules marked t' := by
  induction modules generalizing t draws marked with
  | nil =>
      cases h
      exact marked_nil _
  | cons m others ih =>
      rw [mark] at h
      cases hCollision : t.collision? m with
      | none =>
          simp only [hCollision, Option.bind_eq_bind, Option.bind_eq_some_iff] at h
          obtain ⟨⟨more, final⟩, hMore, hSame⟩ := h
          cases hSame
          exact (ih hMore).keep (collision?_eq_none_iff.mp hCollision)
      | some e =>
          simp only [hCollision, Option.bind_eq_bind, Option.bind_eq_some_iff] at h
          obtain ⟨⟨id, draws⟩, hFresh, ⟨more, final⟩, hMore, hSame⟩ := h
          cases hSame
          exact (ih hMore).replace (freshId?_eq_some hFresh)

/-- A module that is moved ends at the id that was wanted and at a tag that is not taken. -/
theorem move_eq_some {id : ModuleId} {m moved : Module} {draws rest : List GraphTag}
    (h : t.move id m draws = some (moved, rest)) :
    moved.id = id ∧ moved.graphTag ∉ t.tags ∧ m.Moved moved := by
  induction draws generalizing m with
  | nil => cases h
  | cons tag more ih =>
      rw [move] at h
      by_cases hSame : tag = m.graphTag
      · rw [if_pos hSame] at h
        exact ih h
      rw [if_neg hSame] at h
      by_cases hTaken : t.tags.contains tag = true
      · simp only [hTaken, if_true] at h
        obtain ⟨hId, hTag, hMoved⟩ := ih h
        exact ⟨hId, hTag, (Module.Moved.here.again id tag).trans hMoved⟩
      · simp only [hTaken, Bool.false_eq_true, if_false] at h
        cases h
        exact ⟨rfl, fun hm => hTaken (List.contains_iff_mem.mpr hm), .again .here id tag⟩

/-- Moving the marked modules gives each the id it is to have. A tag that comes out was kept or
is new, and none comes out twice. -/
theorem moveMarked_eq_some {draws rest : List GraphTag} {moved : List Module}
    {marked : List (Module × Option ModuleId)}
    (h : t.moveMarked draws marked = some (moved, rest)) (hKept : (keptTags marked).Nodup)
    (hTaken : ∀ tag ∈ keptTags marked, tag ∈ t.tags) :
    moved.map Module.id = marked.map markedId ∧ (moved.map Module.graphTag).Nodup ∧
      (∀ tag ∈ moved.map Module.graphTag, tag ∈ keptTags marked ∨ tag ∉ t.tags) ∧
      List.Forall₂ Module.Moved (marked.map Prod.fst) moved := by
  induction marked generalizing t draws moved with
  | nil =>
      cases h
      refine ⟨rfl, .nil, fun tag hm => ?_, .nil⟩
      cases hm
  | cons entry others ih =>
      obtain ⟨m, _ | id⟩ := entry
      · simp only [moveMarked, Option.bind_eq_bind, Option.bind_eq_some_iff] at h
        obtain ⟨⟨more, final⟩, hMore, hSame⟩ := h
        cases hSame
        obtain ⟨hFresh, hOthers⟩ := List.nodup_cons.mp hKept
        obtain ⟨hIds, hTags, hOrigin, hMoved⟩ :=
          ih hMore hOthers fun tag hm => hTaken tag (List.mem_cons_of_mem _ hm)
        -- No other module has its tag: those that stay have others, and no drawn tag is taken.
        refine ⟨congrArg (m.id :: ·) hIds, List.nodup_cons.mpr ⟨fun hm => ?_, hTags⟩,
          fun tag hm => ?_, .cons .here hMoved⟩
        · exact (hOrigin _ hm).elim hFresh fun h => h (hTaken _ (List.mem_cons_self ..))
        · rcases List.mem_cons.mp hm with rfl | hm
          · exact .inl (List.mem_cons_self ..)
          · exact (hOrigin tag hm).imp_left (List.mem_cons_of_mem _)
      · simp only [moveMarked, Option.bind_eq_bind, Option.bind_eq_some_iff] at h
        obtain ⟨⟨first, draws'⟩, hMove, ⟨more, final⟩, hMore, hSame⟩ := h
        cases hSame
        obtain ⟨hId, hTag, hFirst⟩ := move_eq_some hMove
        obtain ⟨hIds, hTags, hOrigin, hMoved⟩ :=
          ih hMore hKept fun tag hm => List.mem_cons_of_mem _ (hTaken tag hm)
        refine ⟨by simp [markedId, hIds, hId], List.nodup_cons.mpr ⟨fun hm => ?_, hTags⟩,
          fun tag hm => ?_, .cons hFirst hMoved⟩
        · rcases hOrigin _ hm with hOld | hNew
          · exact hTag (hTaken _ hOld)
          · exact hNew (List.mem_cons_self ..)
        · rcases List.mem_cons.mp hm with rfl | hm
          · exact .inr hTag
          · exact (hOrigin tag hm).imp_right fun h hOld => h (List.mem_cons_of_mem _ hOld)

/-- Regenerated modules are the given ones under identities that are distinct and not taken. -/
theorem regenerate_eq_some {draws rest : Draws} {modules moved : List Module}
    (h : t.regenerate draws modules = some (moved, rest)) :
    Program.Distinct moved ∧ (∀ m ∈ moved, m.id ∉ t.ids ∧ m.graphTag ∉ t.tags) ∧
      List.Forall₂ Module.Moved modules moved := by
  simp only [regenerate, Option.bind_eq_bind, Option.bind_eq_some_iff] at h
  obtain ⟨⟨marked, t', ids⟩, hMark, ⟨moved', tags⟩, hMove, hSame⟩ := h
  cases hSame
  have hMarked := marked_of_mark hMark
  obtain ⟨hIds, hTags, hOrigin, hMoved⟩ := moveMarked_eq_some hMove hMarked.tags
    fun tag hm => hMarked.takenTags tag (.inr hm)
  refine ⟨⟨hIds ▸ hMarked.ids, hTags⟩, fun m hm => ⟨?_, fun hOld => ?_⟩, hMarked.modules ▸ hMoved⟩
  · exact hMarked.newIds _ (hIds ▸ List.mem_map_of_mem hm)
  · rcases hOrigin _ (List.mem_map_of_mem hm) with hKept | hNew
    · exact hMarked.newTags _ hKept hOld
    · exact hNew (hMarked.takenTags _ (.inl hOld))

end Taken

end Disassembly
