import Disassembly.Proofs.MergeIdentity
import Disassembly.Proofs.Renaming

/-! What regenerating identities does to each module. Ids are drawn while the modules are looked at
one after the other, and tags only when that is over, so a drawn id can force a module behind
it to move, while a drawn tag gives way to the modules that stay. -/
namespace Disassembly

/-- How modules are taken over, one after the other, beside what is taken. A module whose
identity is free stays as it is, and its identity is taken from then on. Every other one is
renamed to a drawn id, which is taken from then on, and to a drawn tag. -/
inductive TakenOver (draws : Draws) : Taken → List Module → List Module → Prop where
  | nil (t : Taken) : TakenOver draws t [] []
  | keep {t : Taken} {m : Module} {modules carried : List Module}
      (hFree : m.id ∉ t.ids ∧ m.graphTag ∉ t.tags)
      (rest : TakenOver draws (t.add m) modules carried) :
      TakenOver draws t (m :: modules) (m :: carried)
  | rename {t : Taken} {m : Module} {modules carried : List Module} {id : ModuleId} {tag : GraphTag}
      (hTaken : m.id ∈ t.ids ∨ m.graphTag ∈ t.tags) (hId : id ∈ draws.ids)
      (hTag : tag ∈ draws.tags)
      (rest : TakenOver draws { t with ids := id :: t.ids } modules carried) :
      TakenOver draws t (m :: modules) (m.under id tag :: carried)

/-- Modules are taken over in the same way with more draws at hand, since only those that are used
count. -/
theorem TakenOver.mono {draws draws' : Draws} {t : Taken} {modules carried : List Module}
    (h : TakenOver draws t modules carried) (hIds : ∀ id ∈ draws.ids, id ∈ draws'.ids)
    (hTags : ∀ tag ∈ draws.tags, tag ∈ draws'.tags) : TakenOver draws' t modules carried := by
  induction h with
  | nil t => exact .nil t
  | keep hFree _ ih => exact .keep hFree ih
  | rename hTaken hId hTag _ ih => exact .rename hTaken (hIds _ hId) (hTags _ hTag) ih

namespace Taken

variable {t : Taken}

/-- A module that has to move collides in one of the two ways, and it does not matter here in
which. -/
theorem collision?_ne_none {m : Module} {e : Error} (h : t.collision? m = some e) :
    m.id ∈ t.ids ∨ m.graphTag ∈ t.tags := by
  by_contra hFree
  rw [collision?_eq_none_iff.mpr ⟨fun hId => hFree (.inl hId), fun hTag => hFree (.inr hTag)⟩] at h
  cases h

/-- The draws in front of the one that is used are taken ones. -/
theorem exists_skipped_of_freshId? {draws rest : List ModuleId} {id : ModuleId}
    (h : t.freshId? draws = some (id, rest)) :
    ∃ skipped, draws = skipped ++ id :: rest ∧ ∀ other ∈ skipped, other ∈ t.ids := by
  induction draws with
  | nil => cases h
  | cons head more ih =>
      rw [freshId?] at h
      by_cases hTaken : t.ids.contains head = true
      · rw [if_pos hTaken] at h
        obtain ⟨skipped, rfl, hSkipped⟩ := ih h
        refine ⟨head :: skipped, rfl, List.forall_mem_cons.mpr ⟨?_, hSkipped⟩⟩
        exact List.contains_iff_mem.mp hTaken
      · rw [if_neg hTaken] at h
        cases h
        exact ⟨[], rfl, List.forall_mem_nil _⟩

/-- However often a module moves, it ends as the module that it was, under the last tag. -/
theorem under_of_move {id : ModuleId} {m moved : Module} {draws rest : List GraphTag}
    (h : t.move id m draws = some (moved, rest)) (hm : m.Sound) :
    moved = m.under id moved.graphTag ∧ ∃ used, draws = used ++ rest ∧ moved.graphTag ∈ used := by
  induction draws generalizing m with
  | nil => cases h
  | cons tag more ih =>
      rw [move] at h
      by_cases hSame : tag = m.graphTag
      · rw [if_pos hSame] at h
        obtain ⟨hMoved, used, rfl, hUsed⟩ := ih h hm
        exact ⟨hMoved, tag :: used, rfl, List.mem_cons_of_mem _ hUsed⟩
      rw [if_neg hSame, Module.withIdentity_eq_under hm.wellFormed] at h
      by_cases hTaken : t.tags.contains tag = true
      · simp only [hTaken, if_true] at h
        obtain ⟨hMoved, used, rfl, hUsed⟩ := ih h (hm.under id tag)
        rw [Module.under_under] at hMoved
        exact ⟨hMoved, tag :: used, rfl, List.mem_cons_of_mem _ hUsed⟩
      · simp only [hTaken, Bool.false_eq_true, if_false] at h
        cases h
        exact ⟨rfl, [tag], rfl, List.mem_singleton_self tag⟩

/-- Marking decides for each module whether it is kept, and moving then does what was decided.
The tags that are taken while modules move, `t'`, have no say in who moves. -/
theorem takenOver_of_mark {modules carried : List Module} {draws : Draws} {t₁ t' : Taken}
    {marked : List (Module × Option ModuleId)} {ids : List ModuleId} {tags : List GraphTag}
    (hMark : t.mark draws.ids modules = some (marked, t₁, ids))
    (hMove : t'.moveMarked draws.tags marked = some (carried, tags))
    (hSound : ∀ m ∈ modules, m.Sound) : TakenOver draws t modules carried := by
  induction modules generalizing t draws marked t' carried with
  | nil =>
      cases hMark
      cases hMove
      exact .nil _
  | cons m others ih =>
      have hOthers : ∀ n ∈ others, n.Sound := fun n hn => hSound n (List.mem_cons_of_mem _ hn)
      rw [mark] at hMark
      cases hCollision : t.collision? m with
      | none =>
          simp only [hCollision, Option.bind_eq_bind, Option.bind_eq_some_iff] at hMark
          obtain ⟨⟨more, final⟩, hMore, hSame⟩ := hMark
          cases hSame
          simp only [moveMarked, Option.bind_eq_bind, Option.bind_eq_some_iff] at hMove
          obtain ⟨⟨behind, left⟩, hBehind, hSame⟩ := hMove
          cases hSame
          exact .keep (collision?_eq_none_iff.mp hCollision) (ih hMore hBehind hOthers)
      | some e =>
          simp only [hCollision, Option.bind_eq_bind, Option.bind_eq_some_iff] at hMark
          obtain ⟨⟨id, drawsLeft⟩, hFresh, ⟨more, final⟩, hMore, hSame⟩ := hMark
          cases hSame
          simp only [moveMarked, Option.bind_eq_bind, Option.bind_eq_some_iff] at hMove
          obtain ⟨⟨moved, tagsLeft⟩, hFirst, ⟨behind, left⟩, hBehind, hSame⟩ := hMove
          cases hSame
          obtain ⟨skipped, hIds, -⟩ := exists_skipped_of_freshId? hFresh
          obtain ⟨hMoved, used, hTags, hUsed⟩ :=
            under_of_move hFirst (hSound m (List.mem_cons_self ..))
          -- The modules behind only get the draws that are left. What is taken over with these
          -- is taken over with all of them.
          have hRest :
              TakenOver ⟨drawsLeft, tagsLeft⟩ { t with ids := id :: t.ids } others behind :=
            ih hMore hBehind hOthers
          rw [hMoved]
          refine .rename (collision?_ne_none hCollision) ?_ ?_ (hRest.mono ?_ ?_)
          · simp [hIds]
          · rw [hTags]
            exact List.mem_append_left _ hUsed
          · exact fun other hm => by simp [hIds, hm]
          · exact fun other hm => hTags ▸ List.mem_append_right _ hm

/-- Regenerating takes the modules over one by one. They have to be sound, so that all of their
references move along. -/
theorem takenOver_of_regenerate {modules carried : List Module} {draws rest : Draws}
    (h : t.regenerate draws modules = some (carried, rest)) (hSound : ∀ m ∈ modules, m.Sound) :
    TakenOver draws t modules carried := by
  simp only [regenerate, Option.bind_eq_bind, Option.bind_eq_some_iff] at h
  obtain ⟨⟨marked, t', ids⟩, hMark, ⟨moved, tags⟩, hMove, hSame⟩ := h
  cases hSame
  exact takenOver_of_mark hMark hMove hSound

end Taken

end Disassembly
