import Disassembly.Proofs.MergeIdentity
import Disassembly.Proofs.ModuleEdits

/-! The changes of a program. Each keeps the identities of its modules distinct, and adds no
module but one that it was given or a moved one of these. -/
namespace Disassembly.Program

variable {p p' : Program} {α : Type} {a : α}

section Outcomes

/-- A module is added when neither its id nor its tag is there yet, and it comes last. -/
theorem addModule_eq_ok {m : Module} {u : Unit} :
    addModule m p = .ok u p' ↔
      (m.id ∉ p.modules.map Module.id ∧ m.graphTag ∉ p.modules.map Module.graphTag) ∧
        p' = { p with modules := p.modules ++ [m] } := by
  have hIds : ¬p.containsModule m.id = true ↔ m.id ∉ p.modules.map Module.id := by
    simp [containsModule]
  have hTags : ¬p.modules.any (·.graphTag = m.graphTag) = true ↔
      m.graphTag ∉ p.modules.map Module.graphTag := by
    simp
  simp only [addModule, Edit.bind_eq_ok, Edit.get_eq_ok, Edit.refuseIf_eq_ok, Edit.set_eq_ok]
  constructor
  · rintro ⟨_, _, ⟨rfl, rfl⟩, ⟨⟩, _, ⟨hId, rfl⟩, ⟨⟩, _, ⟨hTag, rfl⟩, rfl⟩
    exact ⟨⟨hIds.mp hId, hTags.mp hTag⟩, rfl⟩
  · rintro ⟨⟨hId, hTag⟩, rfl⟩
    exact ⟨p, p, ⟨rfl, rfl⟩, ⟨⟩, p, ⟨hIds.mpr hId, rfl⟩, ⟨⟩, p, ⟨hTags.mpr hTag, rfl⟩, rfl⟩

theorem atomic_addModule (m : Module) : Edit.Atomic (addModule m) := by
  apply Edit.quiet_get.bind
  intro p
  apply (Edit.quiet_refuseIf _ _).bind
  intro _
  apply (Edit.quiet_refuseIf _ _).bind
  intro _
  exact Edit.atomic_set_unit _

/-- The module that is removed is the first of its id, and there is no other one in a program whose
ids are distinct. -/
theorem removeModule_eq_ok {id : ModuleId} {m : Module} :
    removeModule id p = .ok m p' ↔ p.module? id = some m ∧
      p' = { p with modules := p.modules.eraseP (·.id = id) } := by
  simp only [removeModule, Edit.bind_eq_ok, Edit.get_eq_ok, Edit.demand_eq_ok, Edit.set_eq_ok,
    Edit.pure_eq_ok]
  constructor
  · rintro ⟨_, _, ⟨rfl, rfl⟩, m, _, ⟨hm, rfl⟩, ⟨⟩, _, rfl, rfl, rfl⟩
    exact ⟨hm, rfl⟩
  · rintro ⟨hm, rfl⟩
    exact ⟨p, p, ⟨rfl, rfl⟩, m, p, ⟨hm, rfl⟩, ⟨⟩, _, rfl, rfl, rfl⟩

theorem atomic_removeModule (id : ModuleId) : Edit.Atomic (removeModule id) := by
  apply Edit.quiet_get.bind
  intro p
  apply (Edit.quiet_demand _ _).bind
  intro m
  exact Edit.atomic_set _ _

/-- A module is changed in place, whether or not the change fails. -/
theorem modules_onModule (p : Program) (position : Nat) (edit : Edit Module α) :
    ((onModule position edit).after p).modules = p.modules.modify position edit.after := by
  unfold onModule Edit.after
  cases hAt : p.modules[position]? with
  | none => simp [List.modify_eq_set_getElem?, hAt]
  | some m =>
      cases hEdit : edit m <;> simp [List.modify_eq_set_getElem?, hAt, hEdit]

/-- A change inside a program is all or nothing if it is so in the module. -/
theorem atomic_onModule (position : Nat) {edit : Edit Module α} (h : Edit.Atomic edit) :
    Edit.Atomic (onModule position edit) := by
  intro p e p' hEdit
  unfold onModule at hEdit
  cases hAt : p.modules[position]? with
  | none => simp [hAt] at hEdit
  | some m =>
      cases hModule : edit m with
      | ok a m' => simp [hAt, hModule] at hEdit
      | error e' m' =>
          -- The module is put back at its place, and it is the one that was there.
          simp only [hAt, hModule, EStateM.Result.error.injEq] at hEdit
          obtain ⟨-, rfl⟩ := hEdit
          obtain ⟨hLength, rfl⟩ := List.getElem?_eq_some_iff.mp hAt
          rw [h _ _ _ hModule, List.set_getElem_self]

theorem modules_append (p : Program) (modules : List Module) (aux : AuxTables) :
    (p.append modules aux).modules = p.modules ++ modules := rfl

/-- Filling up a collection of tables keeps each table that is there. Of several new ones with
one name the first counts. -/
theorem get?_fill (entries : List (String × AuxData)) (t : AuxTables) (name : String) :
    (entries.foldl (fun t (name, table) =>
      if t.contains name then t else t.insert name table) t).get? name =
      (t.get? name).or (Table.lookup name entries) := by
  induction entries generalizing t with
  | nil => simp [Table.lookup]
  | cons entry rest ih =>
      obtain ⟨other, table⟩ := entry
      rw [List.foldl_cons, ih, Table.lookup]
      by_cases hSame : other = name
      · subst hSame
        rw [if_pos Std.ReflCmp.compare_self]
        cases hOther : t.get? other with
        | some found => simp [Table.contains, hOther]
        | none => simp [Table.contains, hOther, Table.get?_insert]
      · rw [if_neg fun h => hSame (Std.LawfulEqCmp.eq_of_compare h)]
        congr 1
        dsimp only
        split
        · rfl
        · rw [Table.get?_insert, if_neg hSame]

/-- Of two tables with one name that of the program stays, not that of what is appended. -/
theorem get?_auxData_append (p : Program) (modules : List Module) (aux : AuxTables)
    (name : String) :
    (p.append modules aux).auxData.get? name = (p.auxData.get? name).or (aux.get? name) :=
  get?_fill aux.entries p.auxData name

/-- A merge that must not rename anything is accepted as a whole or refused as a whole. -/
theorem merge_fail_eq (p other : Program) (draws : Draws) :
    merge other .fail draws p =
      match (Taken.ofModules p.modules).accept other.modules with
      | .ok _ => .ok (some draws) (p.append other.modules other.auxData)
      | .error e => .error e p := by
  change (do
    Edit.require id ((Taken.ofModules p.modules).accept other.modules)
    set (p.append other.modules other.auxData)
    return some draws : Edit Program (Option Draws)) p = _
  cases (Taken.ofModules p.modules).accept other.modules <;> rfl

/-- A merge that may rename takes all modules over, under new identities where that is needed. It
only stops when the draws have run out, and then changes nothing. -/
theorem merge_regenerate_eq (p other : Program) (draws : Draws) :
    merge other .regenerate draws p =
      match (Taken.ofModules p.modules).regenerate draws other.modules with
      | none => .ok none p
      | some (modules, rest) => .ok (some rest) (p.append modules other.auxData) := by
  change (match (Taken.ofModules p.modules).regenerate draws other.modules with
    | none => pure none
    | some (modules, rest) => do
      set (p.append modules other.auxData)
      return some rest : Edit Program (Option Draws)) p = _
  cases (Taken.ofModules p.modules).regenerate draws other.modules <;> rfl

/-- A merge that fails changes nothing. One that may rename does not fail. -/
theorem atomic_merge (other : Program) (policy : CollisionPolicy) (draws : Draws) :
    Edit.Atomic (merge other policy draws) := by
  intro p e p' hEdit
  cases policy with
  | fail =>
      rw [merge_fail_eq] at hEdit
      split at hEdit <;> cases hEdit
      rfl
  | regenerate =>
      rw [merge_regenerate_eq] at hEdit
      split at hEdit <;> cases hEdit

/-- A merge leaves the program as it was, or appends the modules of the other one, moved if need
be to identities that are distinct from all others. -/
theorem merge_after_cases (p other : Program) (policy : CollisionPolicy) (draws : Draws) :
    (merge other policy draws).after p = p ∨
      ∃ modules, (merge other policy draws).after p = p.append modules other.auxData ∧
        Distinct modules ∧
        (∀ m ∈ modules,
          m.id ∉ p.modules.map Module.id ∧ m.graphTag ∉ p.modules.map Module.graphTag) ∧
        List.Forall₂ Module.Moved other.modules modules := by
  cases policy with
  | fail =>
      have hMerge := merge_fail_eq p other draws
      cases hAccept : (Taken.ofModules p.modules).accept other.modules with
      | error e =>
          rw [hAccept] at hMerge
          exact .inl (by rw [Edit.after, hMerge])
      | ok u =>
          obtain ⟨hDistinct, hFree⟩ := Taken.accept_eq_ok_iff.mp hAccept
          rw [hAccept] at hMerge
          exact .inr ⟨other.modules, Edit.after_of_ok hMerge, hDistinct, hFree,
            List.forall₂_same.mpr fun m _ => .here⟩
  | regenerate =>
      have hMerge := merge_regenerate_eq p other draws
      cases hMoved : (Taken.ofModules p.modules).regenerate draws other.modules with
      | none =>
          rw [hMoved] at hMerge
          exact .inl (Edit.after_of_ok hMerge)
      | some result =>
          obtain ⟨modules, rest⟩ := result
          obtain ⟨hDistinct, hFree, hOrigin⟩ := Taken.regenerate_eq_some hMoved
          rw [hMoved] at hMerge
          exact .inr ⟨modules, Edit.after_of_ok hMerge, hDistinct, hFree, hOrigin⟩

end Outcomes

section Distinctness

theorem distinct_congr {modules others : List Module}
    (hIds : others.map Module.id = modules.map Module.id)
    (hTags : others.map Module.graphTag = modules.map Module.graphTag) :
    Distinct others ↔ Distinct modules :=
  ⟨fun h => ⟨hIds ▸ h.ids, hTags ▸ h.tags⟩, fun h => ⟨hIds ▸ h.ids, hTags ▸ h.tags⟩⟩

/-- An addition is refused rather than to have an id or a tag twice. -/
theorem distinct_addModule {m : Module} (h : Distinct p.modules) :
    Distinct ((addModule m).after p).modules := by
  refine (atomic_addModule m).keeps (I := fun p => Distinct p.modules) h fun u p' hEdit => ?_
  obtain ⟨hFree, rfl⟩ := addModule_eq_ok.mp hEdit
  refine distinct_append_iff.mpr ⟨h, distinct_cons_iff.mpr ⟨distinct_nil, by simp⟩, fun n hn => ?_⟩
  rw [List.mem_singleton.mp hn]
  exact hFree

/-- Fewer modules are still distinct. -/
theorem distinct_removeModule {id : ModuleId} (h : Distinct p.modules) :
    Distinct ((removeModule id).after p).modules := by
  refine (atomic_removeModule id).keeps (I := fun p => Distinct p.modules) h fun m p' hEdit => ?_
  obtain ⟨-, rfl⟩ := removeModule_eq_ok.mp hEdit
  exact ⟨h.ids.sublist (List.eraseP_sublist.map _), h.tags.sublist (List.eraseP_sublist.map _)⟩

/-- What a change in place leaves alone is listed as before. -/
theorem map_modify {β : Type} {view : Module → β} {f : Module → Module}
    (hView : ∀ m, view (f m) = view m) (modules : List Module) (position : Nat) :
    (modules.modify position f).map view = modules.map view := by
  apply List.ext_getElem?
  intro i
  rw [List.getElem?_map, List.getElem?_map, List.getElem?_modify]
  by_cases hAt : position = i
  · cases modules[i]? <;> simp [hAt, hView]
  · simp [hAt]

/-- Changes inside a module do not touch what tells it from others. -/
theorem distinct_onModule {position : Nat} {op : Module.Operation α} (h : Distinct p.modules) :
    Distinct ((onModule position op.run).after p).modules := by
  rw [modules_onModule]
  refine (distinct_congr (map_modify (fun m => ?_) _ _) (map_modify (fun m => ?_) _ _)).mpr h
  · exact (Module.identity_after m op).1
  · exact (Module.identity_after m op).2

/-- A merge keeps identities distinct under both policies: it refuses or renames whatever
collides. -/
theorem distinct_merge {other : Program} {policy : CollisionPolicy} {draws : Draws}
    (h : Distinct p.modules) : Distinct ((merge other policy draws).after p).modules := by
  rcases merge_after_cases p other policy draws with hSame | ⟨modules, hAfter, hNew, hFree, -⟩
  · rwa [hSame]
  · rw [hAfter, modules_append]
    exact distinct_append_iff.mpr ⟨h, hNew, hFree⟩

end Distinctness

section Origin

/-! Where the modules of the changed program come from. -/

theorem mem_addModule {m n : Module} (h : n ∈ ((addModule m).after p).modules) :
    n ∈ p.modules ∨ n = m := by
  rcases (atomic_addModule m).after_cases p with hSame | ⟨u, hEdit⟩
  · exact .inl (hSame ▸ h)
  · obtain ⟨-, hAfter⟩ := addModule_eq_ok.mp hEdit
    rw [hAfter] at h
    exact (List.mem_append.mp h).imp_right List.mem_singleton.mp

theorem mem_removeModule {id : ModuleId} {n : Module}
    (h : n ∈ ((removeModule id).after p).modules) : n ∈ p.modules := by
  rcases (atomic_removeModule id).after_cases p with hSame | ⟨m, hEdit⟩
  · exact hSame ▸ h
  · obtain ⟨-, hAfter⟩ := removeModule_eq_ok.mp hEdit
    rw [hAfter] at h
    exact List.mem_of_mem_eraseP h

/-- A module of the changed program is an old one, or an old one after the change. -/
theorem mem_onModule {position : Nat} {edit : Edit Module α} {n : Module}
    (h : n ∈ ((onModule position edit).after p).modules) :
    n ∈ p.modules ∨ ∃ m ∈ p.modules, n = edit.after m := by
  rw [modules_onModule] at h
  obtain ⟨i, hi⟩ := List.mem_iff_getElem?.mp h
  rw [List.getElem?_modify] at hi
  obtain ⟨m, hm, hn⟩ := Option.map_eq_some_iff.mp hi
  have hMember : m ∈ p.modules := List.mem_of_getElem? hm
  by_cases hAt : position = i
  · rw [if_pos hAt] at hn
    exact .inr ⟨m, hMember, hn.symm⟩
  · rw [if_neg hAt] at hn
    exact .inl (hn ▸ hMember)

/-- A module of the merged program was in one of the two, possibly under another identity. -/
theorem mem_merge {other : Program} {policy : CollisionPolicy} {draws : Draws} {n : Module}
    (h : n ∈ ((merge other policy draws).after p).modules) :
    n ∈ p.modules ∨ ∃ m ∈ other.modules, m.Moved n := by
  rcases merge_after_cases p other policy draws with hSame | ⟨modules, hAfter, -, -, hOrigin⟩
  · exact .inl (hSame ▸ h)
  · rw [hAfter, modules_append] at h
    exact (List.mem_append.mp h).imp_right (Module.exists_moved_of_mem hOrigin)

end Origin

end Disassembly.Program
