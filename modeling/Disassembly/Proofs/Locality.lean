import Disassembly.Proofs.Undo

/-! Changes inside a program are local. All modules but one stay as they are and where they are, and
in that one all stays but the part that the change names. -/
namespace Disassembly.Program

variable {p p' : Program} {α : Type} {a : α}

/-- A change inside a program has an answer when there is a module at the position and the change
succeeds in it. -/
theorem onModule_eq_ok {position : Nat} {edit : Edit Module α} :
    onModule position edit p = .ok (some a) p' ↔
      ∃ m m', p.modules[position]? = some m ∧ edit m = .ok a m' ∧
        p' = { p with modules := p.modules.set position m' } := by
  unfold onModule
  cases p.modules[position]? with
  | none => simp
  | some m =>
      cases hEdit : edit m with
      | ok b m' => simp [hEdit, and_assoc, eq_comm]
      | error e m' => simp [hEdit]

/-- Changes touch only what they name. Beside the module that is changed nothing moves; within it
everything but the named part is kept, with its id, its content, its place and its answers; the
part changes in the way that is said of it; and what was added can be taken out again, which
leaves no trace but an id that will not be given out any more. -/
theorem changes_touch_only_what_they_name {position : Nat} {op : Module.Operation α}
    (h : p.Reachable) (hEdit : onModule position op.run p = .ok (some a) p') :
    (p'.auxData = p.auxData ∧ p'.modules.map Module.id = p.modules.map Module.id ∧
      ∀ i, i ≠ position → p'.modules[i]? = p.modules[i]?) ∧
    ∃ m m', p.modules[position]? = some m ∧ p'.modules[position]? = some m' ∧
      op.run m = .ok a m' ∧ m.SameBut (op.part a) m' ∧ op.Effect a m m' ∧
      ∀ id ∈ op.gives a, ∃ x m'', m'.item? id = some x ∧
        Module.remove id m' = .ok (some x) m'' ∧ m.Undone id m'' := by
  have hIds : p'.modules.map Module.id = p.modules.map Module.id := by
    rw [← Edit.after_of_ok hEdit, modules_onModule]
    exact map_modify (fun m => (Module.identity_after m op).1) _ _
  obtain ⟨m, m', hm, hRun, rfl⟩ := onModule_eq_ok.mp hEdit
  have hSound : m.Sound := h.sound.modules m (List.mem_of_getElem? hm)
  obtain ⟨hBound, -⟩ := List.getElem?_eq_some_iff.mp hm
  refine ⟨⟨rfl, hIds, fun i hi => ?_⟩, m, m', hm, ?_, hRun, Module.sameBut_run hSound op hRun,
    Module.effect_run hSound op hRun, Module.undo_run hSound op hRun⟩
  · exact List.getElem?_set_ne (Ne.symm hi)
  · exact List.getElem?_set_self hBound

/-- A second edge at the block of the second copy. It comes behind the first one at both of its
ends, and can be taken out again. -/
theorem changes_touch_only_what_they_name_doubledRecursion :
    let p := doubledRecursion
    let b : BlockId := ⟨⟨.ofLeading [4]⟩, 0⟩
    let joining := (Module.Operation.addEdge b b { kind := .branch }).run
    let p' := (onModule 1 joining).after p
    p.Reachable ∧ onModule 1 joining p = .ok (some ⟨1⟩) p' ∧ p'.modules[0]? = p.modules[0]? ∧
      ∃ m m', p.modules[1]? = some m ∧ p'.modules[1]? = some m' ∧
        m.leaving b none = .ok [(⟨0⟩, ⟨b, b, { kind := .call }⟩)] ∧
        m'.leaving b none =
          .ok [(⟨0⟩, ⟨b, b, { kind := .call }⟩), (⟨1⟩, ⟨b, b, { kind := .branch }⟩)] ∧
        m'.symbols.find "loop" = m.symbols.find "loop" ∧
        ∃ x m'', Module.remove (.ofEdge ⟨1⟩) m' = .ok (some x) m'' ∧
          m.Undone (.ofEdge ⟨1⟩) m'' := by
  intro p b joining p'
  have hEdit : onModule 1 joining p = .ok (some ⟨1⟩) p' := rfl
  obtain ⟨⟨-, -, hOthers⟩, m, m', hm, hm', -, hSame, hEffect, hUndo⟩ :=
    changes_touch_only_what_they_name reachable_doubledRecursion hEdit
  have hBefore : m.leaving b none = .ok [(⟨0⟩, ⟨b, b, { kind := .call }⟩)] := by
    cases hm
    rfl
  refine ⟨reachable_doubledRecursion, hEdit, hOthers 0 Nat.zero_ne_one, m, m', hm, hm', hBefore, ?_,
    hSame.named "loop" id, ?_⟩
  · exact (hEffect.leaving none).trans (congrArg (Except.map _) hBefore)
  · obtain ⟨x, m'', -, hRemove, hUndone⟩ := hUndo _ (.head _)
    exact ⟨x, m'', hRemove, hUndone⟩

end Disassembly.Program
