import Disassembly.Proofs.ProgramEdits

/-! The changes that a program offers, as one type, and what a failed one leaves behind. Checks
stand in front of assignments everywhere, so a failure leaves the state as it was, down to
the counters and the derived lists. Nothing is asked of that state: it may break every rule, and
its counters may be at their end. -/
namespace Disassembly

namespace Program

/-- A change that a program offers, with its arguments. A change of a module that it holds is
among them. -/
inductive Operation : Type → Type 1 where
  | addModule (m : Module) : Operation Unit
  | removeModule (id : ModuleId) : Operation Module
  | setAux (name : String) (table : AuxData) : Operation (Option AuxData)
  | removeAux (name : String) : Operation (Option AuxData)
  | onModule {α : Type} (position : Nat) (op : Module.Operation α) : Operation (Option α)
  | merge (other : Program) (policy : CollisionPolicy) (draws : Draws) :
      Operation (Option Draws)

/-- The change itself. -/
def Operation.run : {α : Type} → Operation α → Edit Program α
  | _, .addModule m => Program.addModule m
  | _, .removeModule id => Program.removeModule id
  | _, .setAux name table => Program.setAux name table
  | _, .removeAux name => Program.removeAux name
  | _, .onModule position op => Program.onModule position op.run
  | _, .merge other policy draws => Program.merge other policy draws

/-- Every change of a program is all or nothing, changes inside a module included. -/
theorem atomic_run {α : Type} (op : Operation α) : Edit.Atomic op.run := by
  cases op with
  | addModule m => exact atomic_addModule m
  | removeModule id => exact atomic_removeModule id
  | setAux | removeAux => exact Edit.quiet_get.bind fun _ => Edit.atomic_set _ _
  | onModule position op => exact atomic_onModule position (Module.atomic_run op)
  | merge other policy draws => exact atomic_merge other policy draws

end Program

/-- Every change is all or nothing. Whatever state a module or a program is in, a change that
fails leaves it equal to what it was, with all that is derived from its content. -/
theorem failure_leaves_no_trace :
    (∀ {α : Type} (op : Module.Operation α) (m m' : Module) (e : Error),
      op.run m = .error e m' → m' = m) ∧
    ∀ {α : Type} (op : Program.Operation α) (p p' : Program) (e : Error),
      op.run p = .error e p' → p' = p :=
  ⟨fun op m m' e hFailed => Module.atomic_run op m e m' hFailed,
    fun op p p' e hFailed => Program.atomic_run op p e p' hFailed⟩

/-- A module that has given out all its ids. One block is left, which lies at the very end of the
addresses, and an edge that leads away from it although nothing lists the edge. -/
def Module.exhausted : Module :=
  let m := build { name := "exhausted" } default default
  let block : BlockId := ⟨default, 7⟩
  { m with
    blocks := { m.blocks with
      nextBlock := 0xffffffff
      nextEdge := 0xffffffff
      blocks := .ofList [(7, .code (some 0xfffffffffffffff0) 15 0)]
      edges := .ofList [(9, ⟨block, ⟨default, 8⟩, { kind := .call }⟩)] }
    symbols := { nextSymbol := 0xffffffff }
    sections := { nextSection := 0xffffffff } }

/-- The last index is never given out, a block is not moved beyond the addresses, and a merge
whose second module collides does not even take over the first one. -/
theorem failure_leaves_no_trace_exhausted :
    (let m := Module.exhausted
    let block : BlockId := ⟨default, 7⟩
    let adding := (Module.Operation.addCodeBlock 0x1000 16).run
    let joining := (Module.Operation.addEdge block block { kind := .call }).run
    let naming := (Module.Operation.addSymbol "f" (.block block)).run
    let moving := (Module.Operation.setBlockAddress block (some 0xfffffffffffffff8)).run
    (adding.answer m = .error (.invalidBlock .blockIdsExhausted) ∧ adding.after m = m) ∧
    (joining.answer m = .error (.invalidBlock .edgeIdsExhausted) ∧ joining.after m = m) ∧
    (naming.answer m = .error (.invalidBlock .symbolIdsExhausted) ∧ naming.after m = m) ∧
    moving.answer m = .error (.invalidBlock (.overflow 0xfffffffffffffff8 15)) ∧
      moving.after m = m) ∧
    let m := Module.exhausted
    let p : Program := { modules := [m] }
    let new : Module := .build { name := "new" } ⟨.ofLeading [1]⟩ ⟨.ofLeading [1]⟩
    let other : Program := { modules := [new, m] }
    let merging := (Program.Operation.merge other .fail ⟨[], []⟩).run
    merging.answer p = .error (.moduleCollision m.id m.name) ∧ merging.after p = p := by
  obtain ⟨hModule, hProgram⟩ := failure_leaves_no_trace
  refine ⟨⟨⟨rfl, ?_⟩, ⟨rfl, ?_⟩, ⟨rfl, ?_⟩, rfl, ?_⟩, rfl, ?_⟩
  · exact hModule _ _ _ _ (Edit.eq_error_of_answer rfl)
  · exact hModule _ _ _ _ (Edit.eq_error_of_answer rfl)
  · exact hModule _ _ _ _ (Edit.eq_error_of_answer rfl)
  · exact hModule _ _ _ _ (Edit.eq_error_of_answer rfl)
  · exact hProgram _ _ _ _ (Edit.eq_error_of_answer rfl)

end Disassembly
