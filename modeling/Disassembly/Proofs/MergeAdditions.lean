import Disassembly.Proofs.ProgramEdits

/-! A merge that must not rename anything, compared with adding the modules one after the other.
The merge collects what is taken and looks at all modules before it touches the program; an
addition looks at the program as the additions before it have left it. Both stop at the same
module for the same reason, but only the merge takes nothing over then. -/
namespace Disassembly

namespace Taken

variable {t t' : Taken}

/-- The id is the reason for a refusal whenever it can be, and the tag only otherwise. -/
theorem collision?_eq_some_iff {m : Module} {e : Error} :
    t.collision? m = some e ↔
      m.id ∈ t.ids ∧ e = .moduleCollision m.id m.name ∨
      m.id ∉ t.ids ∧ m.graphTag ∈ t.tags ∧ e = .graphCollision m.graphTag m.name := by
  unfold collision?
  by_cases hId : m.id ∈ t.ids
  · simp [hId, eq_comm]
  · by_cases hTag : m.graphTag ∈ t.tags <;> simp [hId, hTag, eq_comm]

/-- Both forbid the same ids and the same tags. -/
structure Same (t t' : Taken) : Prop where
  ids : ∀ id, id ∈ t.ids ↔ id ∈ t'.ids
  tags : ∀ tag, tag ∈ t.tags ↔ tag ∈ t'.tags

theorem Same.add (h : Same t t') (m : Module) : Same (t.add m) (t'.add m) where
  ids id := by simp only [Taken.add, List.mem_cons, h.ids]
  tags tag := by simp only [Taken.add, List.mem_cons, h.tags]

/-- The order in which identities were taken makes no difference. -/
theorem Same.collision?_eq (h : Same t t') (m : Module) : t.collision? m = t'.collision? m := by
  have hIds : t.ids.contains m.id = t'.ids.contains m.id := by
    rw [Bool.eq_iff_iff, List.contains_iff_mem, List.contains_iff_mem, h.ids]
  have hTags : t.tags.contains m.graphTag = t'.tags.contains m.graphTag := by
    rw [Bool.eq_iff_iff, List.contains_iff_mem, List.contains_iff_mem, h.tags]
  rw [collision?, collision?, hIds, hTags]

/-- Whether a list of modules is let in, and which one is refused, does not depend on the order
either. -/
theorem Same.accept_eq (h : Same t t') (modules : List Module) :
    t.accept modules = t'.accept modules := by
  induction modules generalizing t t' with
  | nil => rfl
  | cons m rest ih =>
      rw [accept, accept, h.collision?_eq m]
      split
      · rfl
      · exact ih (h.add m)

/-- A module that is taken over at the end is taken like one that was there. -/
theorem same_add_ofModules (modules : List Module) (m : Module) :
    Same ((ofModules modules).add m) (ofModules (modules ++ [m])) where
  ids id := by simp [ofModules, Taken.add, or_comm]
  tags tag := by simp [ofModules, Taken.add, or_comm]

end Taken

namespace Program

/-- Adds modules one after the other, up to the first one that is refused. -/
def addModules : List Module → Edit Program Unit
  | [] => pure ()
  | m :: rest => do
    addModule m
    addModules rest

/-- Adding a module fails exactly when it collides with what is there, and for that reason. -/
theorem addModule_eq (p : Program) (m : Module) :
    addModule m p =
      match (Taken.ofModules p.modules).collision? m with
      | some e => .error e p
      | none => .ok () { p with modules := p.modules ++ [m] } := by
  have hIds : (Taken.ofModules p.modules).ids.contains m.id = p.containsModule m.id := by
    rw [Bool.eq_iff_iff, List.contains_iff_mem]
    simp [Taken.ofModules, containsModule]
  have hTags : (Taken.ofModules p.modules).tags.contains m.graphTag =
      p.modules.any (·.graphTag = m.graphTag) := by
    rw [Bool.eq_iff_iff, List.contains_iff_mem]
    simp [Taken.ofModules]
  rw [Taken.collision?, hIds, hTags]
  change (do
    Edit.refuseIf (p.containsModule m.id) (.moduleCollision m.id m.name)
    Edit.refuseIf (p.modules.any (·.graphTag = m.graphTag)) (.graphCollision m.graphTag m.name)
    set { p with modules := p.modules ++ [m] } : Edit Program Unit) p = _
  cases p.containsModule m.id <;> cases p.modules.any (·.graphTag = m.graphTag) <;> rfl

theorem addModules_append (front behind : List Module) :
    addModules (front ++ behind) = (do addModules front; addModules behind) := by
  induction front with
  | nil => rfl
  | cons m rest ih =>
      funext p
      change (do addModule m; addModules (rest ++ behind) : Edit Program Unit) p = _
      rw [ih]
      change EStateM.bind (addModule m) _ p = EStateM.bind (EStateM.bind (addModule m) _) _ p
      unfold EStateM.bind
      cases addModule m p <;> rfl

/-- Modules that can all keep their identities are added without a failure. -/
theorem addModules_of_accept {modules : List Module} {p : Program}
    (h : (Taken.ofModules p.modules).accept modules = .ok ()) :
    addModules modules p = .ok () { p with modules := p.modules ++ modules } := by
  induction modules generalizing p with
  | nil =>
      rw [List.append_nil]
      rfl
  | cons m rest ih =>
      rw [Taken.accept] at h
      have hFirst := addModule_eq p m
      split at h
      · cases h
      · rename_i hFree
        rw [hFree] at hFirst
        rw [(Taken.same_add_ofModules p.modules m).accept_eq] at h
        have hRest := ih (p := { p with modules := p.modules ++ [m] }) h
        rw [List.append_assoc, List.singleton_append] at hRest
        rw [addModules, Edit.bind_eq_ok]
        exact ⟨(), _, hFirst, hRest⟩

/-- The module at which a merge stops is the one at which the additions stop, and it is refused
with the same error by what the additions before it have made of the program. -/
theorem exists_addModule_error_of_accept {modules : List Module} {p : Program} {e : Error}
    (h : (Taken.ofModules p.modules).accept modules = .error e) :
    ∃ before m behind, modules = before ++ m :: behind ∧
      (Taken.ofModules p.modules).accept before = .ok () ∧
      (Taken.ofModules (p.modules ++ before)).collision? m = some e := by
  induction modules generalizing p with
  | nil => cases h
  | cons m rest ih =>
      rw [Taken.accept] at h
      split at h
      · rename_i e' hTaken
        cases h
        exact ⟨[], m, rest, rfl, rfl, by rwa [List.append_nil]⟩
      · rename_i hFree
        have hSame := Taken.same_add_ofModules p.modules m
        rw [hSame.accept_eq] at h
        obtain ⟨before, m', behind, rfl, hAccept, hTaken⟩ :=
          ih (p := { p with modules := p.modules ++ [m] }) h
        rw [List.append_assoc, List.singleton_append] at hTaken
        refine ⟨m :: before, m', behind, rfl, ?_, hTaken⟩
        rw [Taken.accept, hFree]
        exact (hSame.accept_eq before).trans hAccept

/-- The additions stop at some module, with those before it added, because its id or its tag
is there. -/
structure StopsAt (p : Program) (modules : List Module) (before : List Module) (m : Module)
    (e : Error) : Prop where
  place : ∃ behind, modules = before ++ m :: behind
  added : addModules before p = .ok () { p with modules := p.modules ++ before }
  refused : addModule m { p with modules := p.modules ++ before } =
    .error e { p with modules := p.modules ++ before }
  whole : addModules modules p = .error e { p with modules := p.modules ++ before }
  reason :
    m.id ∈ (p.modules ++ before).map Module.id ∧ e = .moduleCollision m.id m.name ∨
      m.id ∉ (p.modules ++ before).map Module.id ∧
        m.graphTag ∈ (p.modules ++ before).map Module.graphTag ∧
        e = .graphCollision m.graphTag m.name

/-- A refusal comes from one of the modules: those before it can be added, and it cannot. -/
theorem exists_stopsAt_of_accept {modules : List Module} {p : Program} {e : Error}
    (h : (Taken.ofModules p.modules).accept modules = .error e) :
    ∃ before m, StopsAt p modules before m e := by
  obtain ⟨before, m, behind, hModules, hBefore, hTaken⟩ := exists_addModule_error_of_accept h
  let q : Program := { p with modules := p.modules ++ before }
  have hFront : addModules before p = .ok () q := addModules_of_accept hBefore
  have hLast : addModule m q = .error e q := by
    rw [addModule_eq, hTaken]
  refine ⟨before, m, ⟨behind, hModules⟩, hFront, hLast, ?_, Taken.collision?_eq_some_iff.mp hTaken⟩
  rw [hModules, addModules_append]
  change EStateM.bind (addModules before) _ p = _
  rw [EStateM.bind, hFront]
  change EStateM.bind (addModule m) _ q = _
  rw [EStateM.bind, hLast]

/-- A merge that must not rename anything succeeds exactly when the modules can be added one
after the other, and appends them as they are, with those tables whose names are new. Otherwise
it fails as the first refused addition does, and leaves the program as it was although the
additions before that one would have succeeded. -/
theorem merge_refines_additions (p other : Program) (draws : Draws) :
    ((∃ answer p', merge other .fail draws p = .ok answer p') ↔
      ∃ q, addModules other.modules p = .ok () q) ∧
    (∀ answer p', merge other .fail draws p = .ok answer p' →
      addModules other.modules p = .ok () { p with modules := p'.modules } ∧
        p'.modules = p.modules ++ other.modules ∧
        ∀ name, p'.auxData.get? name = (p.auxData.get? name).or (other.auxData.get? name)) ∧
    ∀ e p', merge other .fail draws p = .error e p' →
      p' = p ∧ ∃ before m, StopsAt p other.modules before m e := by
  have hMerge := merge_fail_eq p other draws
  cases hAccept : (Taken.ofModules p.modules).accept other.modules with
  | ok u =>
      have hAdd := addModules_of_accept hAccept
      rw [hAccept] at hMerge
      rw [hMerge]
      refine ⟨⟨fun _ => ⟨_, hAdd⟩, fun _ => ⟨_, _, rfl⟩⟩, fun answer p' hOk => ?_, nofun⟩
      cases hOk
      exact ⟨hAdd, rfl, get?_auxData_append p other.modules other.auxData⟩
  | error e =>
      obtain ⟨before, m, hStop⟩ := exists_stopsAt_of_accept hAccept
      rw [hAccept] at hMerge
      rw [hMerge, hStop.whole]
      refine ⟨⟨nofun, nofun⟩, nofun, fun e' p' hError => ?_⟩
      cases hError
      exact ⟨rfl, before, m, hStop⟩

/-- Of two modules the second is refused, and the first is not taken over either. Alone it is. -/
theorem merge_refines_additions_secondCollides :
    let a := Module.build { name := "a" } ⟨.ofLeading [1]⟩ ⟨.ofLeading [1]⟩
    let b := Module.build { name := "b" } ⟨.ofLeading [2]⟩ ⟨.ofLeading [2]⟩
    let p : Program := { modules := [a] }
    (∃ p', merge { modules := [b] } .fail ⟨[], []⟩ p = .ok (some ⟨[], []⟩) p' ∧
      p'.modules = [a, b]) ∧
    ∃ e, merge { modules := [b, a] } .fail ⟨[], []⟩ p = .error e p ∧
      ∃ before m, StopsAt p [b, a] before m e := by
  intro a b p
  obtain ⟨-, hAlone, -⟩ := merge_refines_additions p { modules := [b] } ⟨[], []⟩
  obtain ⟨-, -, hBoth⟩ := merge_refines_additions p { modules := [b, a] } ⟨[], []⟩
  refine ⟨⟨_, rfl, ?_⟩, .moduleCollision a.id a.name, rfl, ?_⟩
  · exact (hAlone _ _ rfl).2.1
  · exact (hBoth _ _ rfl).2

end Program

end Disassembly
