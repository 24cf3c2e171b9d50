import Disassembly.Proofs.ProgramOperations
import Disassembly.Proofs.Reachable

/-! How a program came about, with an eye on what was loaded for it. Loading checks the rules of a
program and no more, so what else changes and moves keep holds of all modules only if it holds of
the programs that were let in. -/
namespace Disassembly

namespace Program

/-- The program was read, from an archive or from a document. -/
def Loaded (p : Program) : Prop :=
  (∃ options bytes, Archive.decode options bytes = .ok p) ∨ ∃ text, Document.decode text = .ok p

/-- The modules that are handed to a change. -/
def Operation.modulesUsed {α : Type} : Operation α → List Module
  | .addModule m => [m]
  | _ => []

/-- The programs that are handed to a change. -/
def Operation.programsUsed {α : Type} : Operation α → List Program
  | .merge other _ _ => [other]
  | _ => []

/-- Where a module of the changed program comes from. -/
inductive Operation.Source {α : Type} (op : Operation α) (p : Program) : Module → Prop where
  | kept {m : Module} (hMember : m ∈ p.modules) : Source op p m
  | handed {m : Module} (hMember : m ∈ op.modulesUsed) : Source op p m
  | changed {β : Type} {m : Module} (hMember : m ∈ p.modules) (change : Module.Operation β) :
      Source op p (change.run.after m)
  | moved {other : Program} {m m' : Module} (hOther : other ∈ op.programsUsed)
      (hMember : m ∈ other.modules) (hMoved : m.Moved m') : Source op p m'

/-- Whether or not the change succeeds, no module comes from anywhere else. -/
theorem source_of_mem_after {α : Type} {p : Program} {m : Module} (op : Operation α)
    (h : m ∈ (op.run.after p).modules) : op.Source p m := by
  cases op with
  | addModule new =>
      rcases mem_addModule h with hOld | rfl
      · exact .kept hOld
      · exact .handed (List.mem_singleton_self m)
  | removeModule id => exact .kept (mem_removeModule h)
  | setAux | removeAux => exact .kept h
  | onModule position change =>
      rcases mem_onModule h with hOld | ⟨before, hBefore, rfl⟩
      · exact .kept hOld
      · exact .changed hBefore change
  | merge other policy draws =>
      rcases mem_merge h with hOld | ⟨before, hBefore, hMoved⟩
      · exact .kept hOld
      · exact .moved (List.mem_singleton_self other) hBefore hMoved

end Program

mutual

/-- The module was made from nothing or taken from a program, and then changed in any way, where
every program that was loaded on the way was allowed. -/
inductive Module.ReachableBy (allowed : Program → Prop) : Module → Prop where
  | build (d : Module.Description) (id : ModuleId) (tag : GraphTag) :
      Module.ReachableBy allowed (Module.build d id tag)
  | member {p : Program} {m : Module} (prior : Program.ReachableBy allowed p)
      (hMember : m ∈ p.modules) : Module.ReachableBy allowed m
  | operation {α : Type} {m : Module} (prior : Module.ReachableBy allowed m)
      (op : Module.Operation α) : Module.ReachableBy allowed (op.run.after m)

/-- The program was made from nothing or loaded and allowed, and then changed in any way, with
modules and programs that came about alike. -/
inductive Program.ReachableBy (allowed : Program → Prop) : Program → Prop where
  | empty : Program.ReachableBy allowed {}
  | loaded {p : Program} (hLoaded : p.Loaded) (hAllowed : allowed p) :
      Program.ReachableBy allowed p
  | operation {α : Type} {p : Program} (prior : Program.ReachableBy allowed p)
      (op : Program.Operation α) (hModules : ∀ m ∈ op.modulesUsed, Module.ReachableBy allowed m)
      (hPrograms : ∀ q ∈ op.programsUsed, Program.ReachableBy allowed q) :
      Program.ReachableBy allowed (op.run.after p)

end

section

variable {allowed : Program → Prop}

mutual

/-- Conditions on what is loaded only narrow down which modules are reached. -/
theorem Module.ReachableBy.reachable : {m : Module} → m.ReachableBy allowed → m.Reachable
  | _, .build d id tag => .build d id tag
  | _, .member prior hMember => .member (Program.ReachableBy.reachable prior) hMember
  | _, .operation prior op => .operation (Module.ReachableBy.reachable prior) op

/-- Nothing else is reached because of what is asked of loaded programs. -/
theorem Program.ReachableBy.reachable : {p : Program} → p.ReachableBy allowed → p.Reachable
  | _, .empty => .empty
  | _, .loaded (.inl ⟨_, _, hDecode⟩) _ => .archive hDecode
  | _, .loaded (.inr ⟨_, hDecode⟩) _ => .document hDecode
  | _, .operation prior op hModules hPrograms => by
      have hPrior := Program.ReachableBy.reachable prior
      have hModules := fun m hm => Module.ReachableBy.reachable (hModules m hm)
      have hPrograms := fun q hq => Program.ReachableBy.reachable (hPrograms q hq)
      cases op with
      | addModule m => exact .addModule hPrior (hModules m (List.mem_singleton_self m))
      | removeModule id => exact .removeModule hPrior id
      | setAux name table => exact .setAux hPrior name table
      | removeAux name => exact .removeAux hPrior name
      | onModule position op => exact .onModule hPrior position op
      | merge other policy draws =>
          exact .merge hPrior (hPrograms other (List.mem_singleton_self other)) policy draws

end

/-- A change to which nothing is handed. -/
theorem Program.ReachableBy.alone {α : Type} {p : Program} (prior : p.ReachableBy allowed)
    (op : Program.Operation α) (hModules : op.modulesUsed = []) (hPrograms : op.programsUsed = []) :
    (op.run.after p).ReachableBy allowed :=
  .operation prior op (by simp [hModules]) (by simp [hPrograms])

theorem Program.ReachableBy.addModule {p : Program} {m : Module} (prior : p.ReachableBy allowed)
    (source : m.ReachableBy allowed) : ((Program.addModule m).after p).ReachableBy allowed :=
  .operation prior (.addModule m) (List.forall_mem_singleton.mpr source)
    (List.forall_mem_nil _)

/-- A merge is one of the changes. The program that is handed to it came about alike. -/
theorem Program.ReachableBy.merge {p other : Program} (prior : p.ReachableBy allowed)
    (source : other.ReachableBy allowed) (policy : CollisionPolicy) (draws : Draws) :
    ((Program.merge other policy draws).after p).ReachableBy allowed :=
  .operation prior (.merge other policy draws) (List.forall_mem_nil _)
    (List.forall_mem_singleton.mpr source)

mutual

theorem Module.Reachable.reachableBy : {m : Module} → m.Reachable → m.ReachableBy fun _ => True
  | _, .build d id tag => .build d id tag
  | _, .member prior hMember => .member (Program.Reachable.reachableBy prior) hMember
  | _, .operation prior op => .operation (Module.Reachable.reachableBy prior) op

/-- Without a question everything is reached. -/
theorem Program.Reachable.reachableBy : {p : Program} → p.Reachable → p.ReachableBy fun _ => True
  | _, .empty => .empty
  | _, .archive hDecode => .loaded (.inl ⟨_, _, hDecode⟩) trivial
  | _, .document hDecode => .loaded (.inr ⟨_, hDecode⟩) trivial
  | _, .addModule prior source =>
      (Program.Reachable.reachableBy prior).addModule (Module.Reachable.reachableBy source)
  | _, .removeModule prior id =>
      (Program.Reachable.reachableBy prior).alone (.removeModule id) rfl rfl
  | _, .setAux prior name table =>
      (Program.Reachable.reachableBy prior).alone (.setAux name table) rfl rfl
  | _, .removeAux prior name =>
      (Program.Reachable.reachableBy prior).alone (.removeAux name) rfl rfl
  | _, .onModule prior position op =>
      (Program.Reachable.reachableBy prior).alone (.onModule position op) rfl rfl
  | _, .merge prior source policy draws =>
      (Program.Reachable.reachableBy prior).merge (Program.Reachable.reachableBy source) policy
        draws

end

/-- What new modules have, and what changes and moves keep. Nothing is said of loaded ones. -/
structure Module.Lasting (I : Module → Prop) : Prop where
  build : ∀ d id tag, I (Module.build d id tag)
  operation : ∀ {α : Type} (m : Module) (op : Module.Operation α), I m → I (op.run.after m)
  moved : ∀ {m m' : Module}, m.Moved m' → I m → I m'

variable {I : Module → Prop}

mutual

/-- What lasts, and holds of the programs that may be loaded, holds of every module that is reached
with them. -/
theorem Module.ReachableBy.lasting (hI : Module.Lasting I)
    (hAllowed : ∀ p, allowed p → ∀ m ∈ p.modules, I m) :
    {m : Module} → m.ReachableBy allowed → I m
  | _, .build d id tag => hI.build d id tag
  | _, .member prior hMember => Program.ReachableBy.lasting hI hAllowed prior _ hMember
  | _, .operation prior op =>
      hI.operation _ op (Module.ReachableBy.lasting hI hAllowed prior)

/-- One case for each place where a module of the changed program comes from. -/
theorem Program.ReachableBy.lasting (hI : Module.Lasting I)
    (hAllowed : ∀ p, allowed p → ∀ m ∈ p.modules, I m) :
    {p : Program} → p.ReachableBy allowed → ∀ m ∈ p.modules, I m
  | _, .empty => by simp
  | _, .loaded _ hHere => hAllowed _ hHere
  | _, .operation prior op hModules hPrograms => by
      have hPrior := Program.ReachableBy.lasting hI hAllowed prior
      have hModules := fun m hm => Module.ReachableBy.lasting hI hAllowed (hModules m hm)
      have hPrograms := fun q hq => Program.ReachableBy.lasting hI hAllowed (hPrograms q hq)
      intro m hm
      cases Program.source_of_mem_after op hm with
      | kept hMember => exact hPrior m hMember
      | handed hMember => exact hModules m hMember
      | changed hMember change => exact hI.operation _ change (hPrior _ hMember)
      | moved hOther hMember hMoved => exact hI.moved hMoved (hPrograms _ hOther _ hMember)

end

end

end Disassembly
