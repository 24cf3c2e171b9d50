import Disassembly.Proofs.MergeIdentity

/-! How far the draws must reach for regenerating identities, and that those beyond do not matter.
A loop ends at the first draw that it can use. It may pass over any number of taken ones, but
over no new one, so each module uses up at most one new draw of either sort. -/
namespace Disassembly

/-- Draws with more draws behind them. -/
def Draws.followedBy (draws more : Draws) : Draws :=
  ⟨draws.ids ++ more.ids, draws.tags ++ more.tags⟩

namespace Taken

variable {t : Taken}

section Supply

variable {κ : Type} {modules : List Module}

/-- Among the draws are at least `n` different ones that are not taken. -/
def Supplies (draws taken : List κ) (n : Nat) : Prop :=
  ∃ new : List κ, new.Nodup ∧ n ≤ new.length ∧ ∀ x ∈ new, x ∈ draws ∧ x ∉ taken

/-- A supply is also one of fewer new draws, and one next to fewer taken ones. -/
theorem Supplies.mono {draws taken taken' : List κ} {n n' : Nat} (h : Supplies draws taken n)
    (hLength : n' ≤ n) (hTaken : ∀ x ∈ taken', x ∈ taken) : Supplies draws taken' n' := by
  obtain ⟨new, hNodup, hEnough, hNew⟩ := h
  exact ⟨new, hNodup, Nat.le_trans hLength hEnough,
    fun x hx => ⟨(hNew x hx).1, fun hLater => (hNew x hx).2 (hTaken x hLater)⟩⟩

/-- One of them is used up, and those that are passed over before it do not count. -/
theorem Supplies.step [DecidableEq κ] {draws draws' taken taken' : List κ} {n : Nat} {x : κ}
    (h : Supplies draws taken (n + 1))
    (hDraws : ∀ y ∈ draws, y ∉ taken → y ≠ x → y ∈ draws')
    (hTaken : ∀ y ∈ taken', y = x ∨ y ∈ taken) : Supplies draws' taken' n := by
  obtain ⟨new, hNodup, hLength, hNew⟩ := h
  refine ⟨new.erase x, hNodup.erase x, ?_, fun y hy => ?_⟩
  · have := List.le_length_erase (l := new) (a := x)
    omega
  · obtain ⟨hOther, hMem⟩ := hNodup.mem_erase_iff.mp hy
    obtain ⟨hDrawn, hFree⟩ := hNew y hMem
    exact ⟨hDraws y hDrawn hFree hOther, fun hLater => (hTaken y hLater).elim hOther hFree⟩

/-- A supply of at least one has a draw that is not taken. -/
theorem Supplies.exists_mem {draws taken : List κ} {n : Nat} (h : Supplies draws taken (n + 1)) :
    ∃ x ∈ draws, x ∉ taken := by
  obtain ⟨_ | ⟨x, new⟩, -, hLength, hNew⟩ := h
  · simp at hLength
  · exact ⟨x, hNew x (List.mem_cons_self ..)⟩

/-- A loop over ids ends at the latest at the first new id, and passes over no other one. -/
theorem exists_freshId? {draws : List ModuleId} (h : ∃ id ∈ draws, id ∉ t.ids) :
    ∃ id rest, t.freshId? draws = some (id, rest) ∧
      ∀ other ∈ draws, other ∉ t.ids → other ≠ id → other ∈ rest := by
  induction draws with
  | nil => simp at h
  | cons head more ih =>
      rw [freshId?]
      by_cases hTaken : head ∈ t.ids
      · rw [if_pos (List.contains_iff_mem.mpr hTaken)]
        have hMore : ∃ id ∈ more, id ∉ t.ids := by simpa [hTaken] using h
        obtain ⟨id, rest, hFresh, hRest⟩ := ih hMore
        refine ⟨id, rest, hFresh, fun other hMem hFree => hRest other ?_ hFree⟩
        exact (List.mem_cons.mp hMem).resolve_left fun hSame => hFree (hSame ▸ hTaken)
      · rw [if_neg fun h => hTaken (List.contains_iff_mem.mp h)]
        exact ⟨head, more, rfl,
          fun other hMem _ hOther => (List.mem_cons.mp hMem).resolve_left hOther⟩

/-- With as many new ids as there are modules, marking them never runs out of ids. -/
theorem exists_mark {draws : List ModuleId} (h : Supplies draws t.ids modules.length) :
    ∃ answer, t.mark draws modules = some answer := by
  induction modules generalizing t draws with
  | nil => exact ⟨_, rfl⟩
  | cons m rest ih =>
      rw [mark]
      cases t.collision? m with
      | none =>
          have hRest : Supplies draws (t.add m).ids rest.length :=
            h.step (fun id hDrawn _ _ => hDrawn) fun id hId => List.mem_cons.mp hId
          obtain ⟨⟨marked, more⟩, hMarked⟩ := ih hRest
          exact ⟨((m, none) :: marked, more), by simp [hMarked]⟩
      | some e =>
          obtain ⟨id, left, hFresh, hLeft⟩ := exists_freshId? h.exists_mem
          have hRest : Supplies left (id :: t.ids) rest.length :=
            h.step hLeft fun other hOther => List.mem_cons.mp hOther
          obtain ⟨⟨marked, more⟩, hMarked⟩ := ih (t := { t with ids := id :: t.ids }) hRest
          exact ⟨((m, some id) :: marked, more), by simp [hFresh, hMarked]⟩

/-- A loop over tags never stays at the tag that the module has. That is one of the `own` tags
at first and a taken one later, so it does not count as new. -/
theorem exists_move (id : ModuleId) {m : Module} {draws own : List GraphTag}
    (hTag : m.graphTag ∈ t.tags ++ own) (h : ∃ tag ∈ draws, tag ∉ t.tags ++ own) :
    ∃ moved rest, t.move id m draws = some (moved, rest) ∧
      ∀ tag ∈ draws, tag ∉ t.tags ++ own → tag ≠ moved.graphTag → tag ∈ rest := by
  induction draws generalizing m with
  | nil => simp at h
  | cons head more ih =>
      -- A draw that is passed over is not the new tag, so that one is still to come.
      have hSkip : head ∈ t.tags ++ own → ∃ tag ∈ more, tag ∉ t.tags ++ own := by
        intro hHead
        obtain ⟨tag, hMem, hNew⟩ := h
        exact ⟨tag, (List.mem_cons.mp hMem).resolve_left fun hSame => hNew (hSame ▸ hHead), hNew⟩
      have hSkipped : head ∈ t.tags ++ own → ∀ {rest : List GraphTag} {moved : Module},
          (∀ tag ∈ more, tag ∉ t.tags ++ own → tag ≠ moved.graphTag → tag ∈ rest) →
          ∀ tag ∈ head :: more, tag ∉ t.tags ++ own → tag ≠ moved.graphTag → tag ∈ rest := by
        intro hHead rest moved hRest tag hMem hNew
        have hOther : tag ≠ head := fun hSame => hNew (hSame ▸ hHead)
        exact hRest tag ((List.mem_cons.mp hMem).resolve_left hOther) hNew
      rw [move]
      by_cases hSame : head = m.graphTag
      · rw [if_pos hSame]
        have hHead : head ∈ t.tags ++ own := hSame ▸ hTag
        obtain ⟨moved, rest, hMove, hRest⟩ := ih hTag (hSkip hHead)
        exact ⟨moved, rest, hMove, hSkipped hHead hRest⟩
      rw [if_neg hSame]
      by_cases hTaken : head ∈ t.tags
      · simp only [List.contains_iff_mem.mpr hTaken, if_true]
        have hHead : head ∈ t.tags ++ own := List.mem_append_left _ hTaken
        obtain ⟨moved, rest, hMove, hRest⟩ := ih (m := m.withIdentity id head) hHead (hSkip hHead)
        exact ⟨moved, rest, hMove, hSkipped hHead hRest⟩
      · refine ⟨m.withIdentity id head, more, if_neg fun h => hTaken (List.contains_iff_mem.mp h),
          fun tag hMem _ hOther => (List.mem_cons.mp hMem).resolve_left hOther⟩

/-- With as many new tags as there are modules, moving them never runs out of tags. -/
theorem exists_moveMarked {draws own : List GraphTag} {marked : List (Module × Option ModuleId)}
    (hOwn : ∀ entry ∈ marked, entry.1.graphTag ∈ t.tags ++ own)
    (h : Supplies draws (t.tags ++ own) marked.length) :
    ∃ answer, t.moveMarked draws marked = some answer := by
  induction marked generalizing t draws with
  | nil => exact ⟨_, rfl⟩
  | cons entry rest ih =>
      have hHead := hOwn entry (List.mem_cons_self ..)
      have hOthers : ∀ other ∈ rest, other.1.graphTag ∈ t.tags ++ own :=
        fun other hOther => hOwn other (List.mem_cons_of_mem _ hOther)
      obtain ⟨m, _ | id⟩ := entry
      · have hRest : Supplies draws (t.tags ++ own) rest.length :=
          h.mono (Nat.le_succ _) fun _ hTag => hTag
        obtain ⟨⟨modules, more⟩, hMoved⟩ := ih hOthers hRest
        exact ⟨(m :: modules, more), by simp [moveMarked, hMoved]⟩
      · obtain ⟨moved, left, hMove, hLeft⟩ := exists_move id hHead h.exists_mem
        have hRest : Supplies left (moved.graphTag :: t.tags ++ own) rest.length :=
          h.step hLeft fun tag hTag => List.mem_cons.mp hTag
        obtain ⟨⟨modules, more⟩, hMoved⟩ :=
          ih (t := { t with tags := moved.graphTag :: t.tags })
            (fun other hOther => List.mem_cons_of_mem _ (hOthers other hOther)) hRest
        exact ⟨(moved :: modules, more), by simp [moveMarked, hMove, hMoved]⟩

/-- Marking takes no tags but those of the modules that it keeps. -/
theorem mem_tags_of_mark {draws rest : List ModuleId} {t' : Taken}
    {marked : List (Module × Option ModuleId)}
    (h : t.mark draws modules = some (marked, t', rest)) {tag : GraphTag} (hTag : tag ∈ t'.tags) :
    tag ∈ t.tags ++ modules.map Module.graphTag := by
  induction modules generalizing t draws marked with
  | nil =>
      cases h
      exact List.mem_append_left _ hTag
  | cons m others ih =>
      rw [mark] at h
      cases hCollision : t.collision? m with
      | none =>
          simp only [hCollision, Option.bind_eq_bind, Option.bind_eq_some_iff] at h
          obtain ⟨⟨more, final⟩, hMore, hSame⟩ := h
          cases hSame
          simpa [add, or_left_comm] using ih hMore
      | some e =>
          simp only [hCollision, Option.bind_eq_bind, Option.bind_eq_some_iff] at h
          obtain ⟨⟨id, left⟩, -, ⟨more, final⟩, hMore, hSame⟩ := h
          cases hSame
          have hFront := ih hMore
          simp only [List.map_cons, List.mem_append, List.mem_cons] at hFront ⊢
          exact hFront.imp_right .inr

/-- As many new ids as there are modules are enough, and as many tags that are new and that no
module to be taken over has. -/
structure Suffice (draws : Draws) (t : Taken) (modules : List Module) : Prop where
  ids : Supplies draws.ids t.ids modules.length
  tags : Supplies draws.tags (t.tags ++ modules.map Module.graphTag) modules.length

/-- With draws that suffice, every program can be taken over. Sufficing depends on the number of
modules and not on how many of them collide. -/
theorem exists_regenerate {draws : Draws} (h : Suffice draws t modules) :
    ∃ answer, t.regenerate draws modules = some answer := by
  obtain ⟨⟨marked, t', ids⟩, hMark⟩ := exists_mark h.ids
  have hModules : marked.map Prod.fst = modules := (marked_of_mark hMark).modules
  have hLength : marked.length = modules.length := by rw [← hModules, List.length_map]
  have hOwn : ∀ entry ∈ marked,
      entry.1.graphTag ∈ t'.tags ++ modules.map Module.graphTag := by
    intro entry hEntry
    refine List.mem_append_right _ (List.mem_map_of_mem ?_)
    exact hModules ▸ List.mem_map_of_mem hEntry
  have hTags : Supplies draws.tags (t'.tags ++ modules.map Module.graphTag) marked.length :=
    h.tags.mono (Nat.le_of_eq hLength) fun tag hTag =>
      (List.mem_append.mp hTag).elim (mem_tags_of_mark hMark) (List.mem_append_right _)
  obtain ⟨⟨moved, tags⟩, hMove⟩ := exists_moveMarked hOwn hTags
  exact ⟨(moved, ⟨ids, tags⟩), by simp [regenerate, hMark, hMove]⟩

end Supply

section MoreDraws

/-! Draws behind those that are used make no difference. -/

variable {id : ModuleId}

theorem freshId?_append {draws rest : List ModuleId} (more : List ModuleId)
    (h : t.freshId? draws = some (id, rest)) :
    t.freshId? (draws ++ more) = some (id, rest ++ more) := by
  induction draws with
  | nil => cases h
  | cons head behind ih =>
      rw [List.cons_append, freshId?]
      rw [freshId?] at h
      split at h
      · rename_i hTaken
        rw [if_pos hTaken, ih h]
      · rename_i hFree
        cases h
        rw [if_neg hFree]

/-- Further ids behind the draws change no mark and are left over. -/
theorem mark_append {modules : List Module} {draws rest : List ModuleId} {t' : Taken}
    {marked : List (Module × Option ModuleId)} (more : List ModuleId)
    (h : t.mark draws modules = some (marked, t', rest)) :
    t.mark (draws ++ more) modules = some (marked, t', rest ++ more) := by
  induction modules generalizing t draws marked with
  | nil =>
      cases h
      rfl
  | cons m others ih =>
      rw [mark] at h ⊢
      cases hCollision : t.collision? m with
      | none =>
          simp only [hCollision, Option.bind_eq_bind, Option.bind_eq_some_iff] at h
          obtain ⟨⟨behind, final⟩, hBehind, hSame⟩ := h
          cases hSame
          simp [ih hBehind]
      | some e =>
          simp only [hCollision, Option.bind_eq_bind, Option.bind_eq_some_iff] at h
          obtain ⟨⟨id, left⟩, hFresh, ⟨behind, final⟩, hBehind, hSame⟩ := h
          cases hSame
          simp [freshId?_append more hFresh, ih hBehind]

theorem move_append {m moved : Module} {draws rest : List GraphTag} (more : List GraphTag)
    (h : t.move id m draws = some (moved, rest)) :
    t.move id m (draws ++ more) = some (moved, rest ++ more) := by
  induction draws generalizing m with
  | nil => cases h
  | cons tag behind ih =>
      rw [move] at h
      rw [List.cons_append, move]
      split at h
      · rename_i hSame
        rw [if_pos hSame, ih h]
      · rename_i hSame
        rw [if_neg hSame]
        dsimp only at h ⊢
        split at h
        · rename_i hTaken
          rw [if_pos hTaken, ih h]
        · rename_i hFree
          cases h
          rw [if_neg hFree]

theorem moveMarked_append {draws rest : List GraphTag} {modules : List Module}
    {marked : List (Module × Option ModuleId)} (more : List GraphTag)
    (h : t.moveMarked draws marked = some (modules, rest)) :
    t.moveMarked (draws ++ more) marked = some (modules, rest ++ more) := by
  induction marked generalizing t draws modules with
  | nil =>
      cases h
      rfl
  | cons entry others ih =>
      obtain ⟨m, _ | id⟩ := entry
      · simp only [moveMarked, Option.bind_eq_bind, Option.bind_eq_some_iff] at h
        obtain ⟨⟨behind, final⟩, hBehind, hSame⟩ := h
        cases hSame
        simp [moveMarked, ih hBehind]
      · simp only [moveMarked, Option.bind_eq_bind, Option.bind_eq_some_iff] at h
        obtain ⟨⟨moved, left⟩, hMove, ⟨behind, final⟩, hBehind, hSame⟩ := h
        cases hSame
        simp [moveMarked, move_append more hMove, ih hBehind]

/-- Further draws behind those that were enough change no module and are left over. -/
theorem regenerate_followedBy {modules moved : List Module} {draws rest : Draws} (more : Draws)
    (h : t.regenerate draws modules = some (moved, rest)) :
    t.regenerate (draws.followedBy more) modules = some (moved, rest.followedBy more) := by
  simp only [regenerate, Option.bind_eq_bind, Option.bind_eq_some_iff] at h
  obtain ⟨⟨marked, t', ids⟩, hMark, ⟨moved', tags⟩, hMove, hSame⟩ := h
  cases hSame
  simp [regenerate, Draws.followedBy, mark_append more.ids hMark,
    moveMarked_append more.tags hMove]

end MoreDraws

end Taken

end Disassembly
