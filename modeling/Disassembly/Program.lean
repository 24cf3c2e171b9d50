import Disassembly.Module

/-! A program is a list of modules, in the order in which they are loaded, with free-form
tables of its own. No two modules share an id or the tag of their block graph. -/
namespace Disassembly

structure Program where
  modules : List Module := []
  auxData : AuxTables := ∅
deriving DecidableEq, Inhabited

namespace Program

/-- The program as archives hold it, without what is derived. -/
def stored (p : Program) : Program := { p with modules := p.modules.map Module.stored }

/-- Whether two programs hold the same content. What is derived from it is left aside. -/
def sameContent (p q : Program) : Bool := p.stored = q.stored

def module? (p : Program) (id : ModuleId) : Option Module := p.modules.find? (·.id = id)

def containsModule (p : Program) (id : ModuleId) : Bool := p.modules.any (·.id = id)

def modulesNamed (p : Program) (name : String) : List Module :=
  p.modules.filter (·.name = name)

instance : ToString Program where
  toString p := "IR [" ++ String.intercalate ", " (p.modules.map Module.name) ++ "]"

/-- Appends a module whose id and tag are both new to the program. -/
def addModule (m : Module) : Edit Program Unit := do
  let p ← get
  Edit.refuseIf (p.containsModule m.id) (.moduleCollision m.id m.name)
  Edit.refuseIf (p.modules.any (·.graphTag = m.graphTag)) (.graphCollision m.graphTag m.name)
  set { p with modules := p.modules ++ [m] }

/-- Takes a module out and keeps the order of the others. -/
def removeModule (id : ModuleId) : Edit Program Module := do
  let p ← get
  let m ← Edit.demand (.unknownModule id) (p.module? id)
  set { p with modules := p.modules.eraseP (·.id = id) }
  return m

/-- Attaches a table, and gives back the one that had its name. -/
def setAux (name : String) (table : AuxData) : Edit Program (Option AuxData) := do
  let p ← get
  set { p with auxData := p.auxData.insert name table }
  return p.auxData.get? name

def removeAux (name : String) : Edit Program (Option AuxData) := do
  let p ← get
  set { p with auxData := p.auxData.erase name }
  return p.auxData.get? name

/-- A change of the module at a position, if there is one. -/
def onModule {α : Type} (position : Nat) (edit : Edit Module α) : Edit Program (Option α) :=
  fun p =>
    match p.modules[position]? with
    | none => .ok none p
    | some m =>
      let put (m' : Module) : Program := { p with modules := p.modules.set position m' }
      match edit m with
      | .ok a m' => .ok (some a) (put m')
      | .error e m' => .error e (put m')

end Program

end Disassembly
