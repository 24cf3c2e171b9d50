import Disassembly.Proofs.Loading
import Disassembly.Proofs.ModuleSound
import Disassembly.Proofs.ProgramEdits

/-! Everything that can be made with the changes of programs and modules and by loading. What
holds of new and of loaded modules and is kept by every change of a module and by every move
to another identity holds of all modules of such a program. -/
namespace Disassembly

mutual

/-- The module was made from nothing or taken from a program, and then changed in any way. A
change that fails counts as one, with what it left behind. -/
inductive Module.Reachable : Module → Prop where
  | build (d : Module.Description) (id : ModuleId) (tag : GraphTag) :
      Module.Reachable (Module.build d id tag)
  | member {p : Program} {m : Module} (prior : Program.Reachable p) (hMember : m ∈ p.modules) :
      Module.Reachable m
  | operation {α : Type} {m : Module} (prior : Module.Reachable m) (op : Module.Operation α) :
      Module.Reachable (op.run.after m)

/-- The program was made from nothing or loaded, and then changed in any way. -/
inductive Program.Reachable : Program → Prop where
  | empty : Program.Reachable {}
  | archive {p : Program} {options : ArchiveOptions} {bytes : List UInt8}
      (hDecode : Archive.decode options bytes = .ok p) : Program.Reachable p
  | document {p : Program} {text : String} (hDecode : Document.decode text = .ok p) :
      Program.Reachable p
  | addModule {p : Program} {m : Module} (prior : Program.Reachable p)
      (source : Module.Reachable m) : Program.Reachable ((Program.addModule m).after p)
  | removeModule {p : Program} (prior : Program.Reachable p) (id : ModuleId) :
      Program.Reachable ((Program.removeModule id).after p)
  | setAux {p : Program} (prior : Program.Reachable p) (name : String) (table : AuxData) :
      Program.Reachable ((Program.setAux name table).after p)
  | removeAux {p : Program} (prior : Program.Reachable p) (name : String) :
      Program.Reachable ((Program.removeAux name).after p)
  | onModule {α : Type} {p : Program} (prior : Program.Reachable p) (position : Nat)
      (op : Module.Operation α) : Program.Reachable ((Program.onModule position op.run).after p)
  | merge {p other : Program} (prior : Program.Reachable p) (source : Program.Reachable other)
      (policy : CollisionPolicy) (draws : Draws) :
      Program.Reachable ((Program.merge other policy draws).after p)

end

/-- What one step keeps of a module, and new and loaded modules have. -/
structure Module.Invariant (I : Module → Prop) : Prop where
  build : ∀ d id tag, I (Module.build d id tag)
  relink : ∀ m : Module, m.WellFormed → I m.relink
  operation : ∀ {α : Type} (m : Module) (op : Module.Operation α), I m → I (op.run.after m)
  withIdentity : ∀ (m : Module) id tag, I m → I (m.withIdentity id tag)

/-- What is kept by one move to another identity is kept by any number of them. -/
theorem Module.Invariant.moved {I : Module → Prop} (hI : Module.Invariant I) {m m' : Module}
    (hm : I m) (hMoved : m.Moved m') : I m' := by
  induction hMoved with
  | here => exact hm
  | again _ id tag ih => exact hI.withIdentity _ id tag ih

namespace Program

/-- What is loaded had its rules checked and its lists rebuilt, so an invariant holds from there
on. -/
theorem invariant_of_accept {I : Module → Prop} (hI : Module.Invariant I) {p q : Program}
    (h : Archive.accept p = .ok q) : ∀ m ∈ q.modules, I m := by
  obtain ⟨hWellFormed, rfl⟩ := Archive.accept_eq_ok_iff.mp h
  intro m hm
  obtain ⟨n, hn, rfl⟩ := List.mem_map.mp hm
  exact hI.relink n (hWellFormed.modules n hn)

end Program

mutual

/-- An invariant holds of every module that can be reached, with programs on the way, by induction
over how it came about. -/
theorem Module.Reachable.invariant {I : Module → Prop} (hI : Module.Invariant I) :
    {m : Module} → m.Reachable → I m
  | _, .build d id tag => hI.build d id tag
  | _, .member prior hMember => Program.Reachable.invariant hI prior _ hMember
  | _, .operation prior op => hI.operation _ op (Module.Reachable.invariant hI prior)

/-- One case for each way on which a program can come about. -/
theorem Program.Reachable.invariant {I : Module → Prop} (hI : Module.Invariant I) :
    {p : Program} → p.Reachable → ∀ m ∈ p.modules, I m
  | _, .empty => by simp
  | _, .archive hDecode => by
      obtain ⟨q, hAccept⟩ := Archive.exists_accept_of_decode hDecode
      exact Program.invariant_of_accept hI hAccept
  | _, .document hDecode => by
      obtain ⟨q, hAccept⟩ := Document.exists_accept_of_decode hDecode
      exact Program.invariant_of_accept hI hAccept
  | _, .addModule prior source => by
      have hOld := Program.Reachable.invariant hI prior
      have hNew := Module.Reachable.invariant hI source
      intro m hm
      rcases Program.mem_addModule hm with hm | rfl
      · exact hOld m hm
      · exact hNew
  | _, .removeModule prior id => by
      have hOld := Program.Reachable.invariant hI prior
      exact fun m hm => hOld m (Program.mem_removeModule hm)
  | _, .setAux prior name table => by
      have hOld := Program.Reachable.invariant hI prior
      exact fun m hm => hOld m hm
  | _, .removeAux prior name => by
      have hOld := Program.Reachable.invariant hI prior
      exact fun m hm => hOld m hm
  | _, .onModule prior position op => by
      have hOld := Program.Reachable.invariant hI prior
      intro m hm
      rcases Program.mem_onModule hm with hm | ⟨n, hn, rfl⟩
      · exact hOld m hm
      · exact hI.operation n op (hOld n hn)
  | _, .merge prior source policy draws => by
      have hOld := Program.Reachable.invariant hI prior
      have hOther := Program.Reachable.invariant hI source
      intro m hm
      rcases Program.mem_merge hm with hm | ⟨n, hn, hMoved⟩
      · exact hOld m hm
      · exact hI.moved (hOther n hn) hMoved

end

/-- Modules are told apart by ids and tags all the time. -/
theorem Program.Reachable.distinct : {p : Program} → p.Reachable → Program.Distinct p.modules
  | _, .empty => Program.distinct_nil
  | _, .archive hDecode => by
      obtain ⟨q, hAccept⟩ := Archive.exists_accept_of_decode hDecode
      exact (Archive.wellFormed_of_accept hAccept).distinct
  | _, .document hDecode => by
      obtain ⟨q, hAccept⟩ := Document.exists_accept_of_decode hDecode
      exact (Archive.wellFormed_of_accept hAccept).distinct
  | _, .addModule prior _ => Program.distinct_addModule prior.distinct
  | _, .removeModule prior _ => Program.distinct_removeModule prior.distinct
  | _, .setAux prior _ _ => prior.distinct
  | _, .removeAux prior _ => prior.distinct
  | _, .onModule prior _ _ => Program.distinct_onModule prior.distinct
  | _, .merge prior _ _ _ => Program.distinct_merge prior.distinct

/-- The rules of a program, and derived lists that agree with its content. -/
structure Program.Sound (p : Program) : Prop where
  distinct : Program.Distinct p.modules
  modules : ∀ m ∈ p.modules, m.Sound

/-- A sound program keeps all rules. -/
theorem Program.Sound.wellFormed {p : Program} (h : p.Sound) : p.WellFormed :=
  ⟨h.distinct, fun m hm => (h.modules m hm).wellFormed⟩

/-- Soundness holds of new and of loaded modules and is kept by every change and every move. -/
theorem Module.invariant_sound : Module.Invariant Module.Sound where
  build := Module.sound_build
  relink _ h := Module.sound_relink h
  operation _ op h := Module.sound_after h op
  withIdentity _ id tag h := Module.sound_withIdentity h id tag

theorem Module.Reachable.sound {m : Module} (h : m.Reachable) : m.Sound :=
  h.invariant Module.invariant_sound

/-- Every program that can be reached is sound: its rules hold and its lists are right. -/
theorem Program.Reachable.sound {p : Program} (h : p.Reachable) : p.Sound :=
  ⟨h.distinct, h.invariant Module.invariant_sound⟩

/-- Every program keeps its rules, whatever was done and whether or not it succeeded. -/
theorem Program.wellFormed_of_reachable {p : Program} (h : p.Reachable) : p.WellFormed :=
  h.sound.wellFormed

/-- A module in which a named block calls itself and is the entry point. The last change fails,
because something still refers to the block. -/
def Module.recursion (id : ModuleId) (tag : GraphTag) : Module :=
  let block : BlockId := ⟨tag, 0⟩
  let m := build { name := "recursion" } id tag
  let m := (Operation.addCodeBlock 0x1000 16).run.after m
  let m := (Operation.addEdge block block { kind := .call }).run.after m
  let m := (Operation.addSymbol "loop" (.block block)).run.after m
  let m := (Operation.setEntryPoint (some block)).run.after m
  let m := (Operation.addSection ⟨".text", 0x1000, 0x100, .code⟩).run.after m
  (Operation.removeBlock block).run.after m

/-- The module is made by six changes, one of which is refused. -/
theorem Module.reachable_recursion (id : ModuleId) (tag : GraphTag) :
    (recursion id tag).Reachable := by
  repeat apply Reachable.operation
  exact .build _ id tag

/-- A program of that module, merged with itself. The second copy gets the second of the drawn
ids, since the first one is taken, and a drawn tag. -/
def Program.doubledRecursion : Program :=
  let id : ModuleId := ⟨.ofLeading [1]⟩
  let p := (addModule (.recursion id ⟨.ofLeading [2]⟩)).after {}
  (merge p .regenerate ⟨[id, ⟨.ofLeading [3]⟩], [⟨.ofLeading [4]⟩]⟩).after p

theorem Program.reachable_doubledRecursion : doubledRecursion.Reachable := by
  have hSingle := Reachable.addModule .empty
    (Module.reachable_recursion ⟨.ofLeading [1]⟩ ⟨.ofLeading [2]⟩)
  exact hSingle.merge hSingle .regenerate
    ⟨[⟨.ofLeading [1]⟩, ⟨.ofLeading [3]⟩], [⟨.ofLeading [4]⟩]⟩

/-- Both copies keep the rules, each with its one block and edge and an entry point under its own
tag. -/
theorem Program.wellFormed_doubledRecursion :
    doubledRecursion.Reachable ∧ doubledRecursion.WellFormed ∧
      doubledRecursion.modules.map (fun m => (m.blocks.blockCount, m.blocks.edgeCount)) =
        [(1, 1), (1, 1)] ∧
      doubledRecursion.modules.map (fun m => m.entryPoint.map (·.graph)) =
        [some ⟨.ofLeading [2]⟩, some ⟨.ofLeading [4]⟩] :=
  ⟨reachable_doubledRecursion, wellFormed_of_reachable reachable_doubledRecursion,
    by decide, by decide⟩

end Disassembly
