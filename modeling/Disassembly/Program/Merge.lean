import Disassembly.Program

/-! Merging appends the modules of one program to another. A module whose id or tag is taken
is either refused or moved to a new identity. Nothing is linked: no edge is drawn between
modules and no symbol is joined with another. -/
namespace Disassembly

inductive CollisionPolicy where
  | fail | regenerate
deriving DecidableEq, Inhabited

namespace CollisionPolicy

def all : List CollisionPolicy := [.fail, .regenerate]

/-- The name in documents. -/
def name : CollisionPolicy → String
  | fail => "Fail"
  | regenerate => "Regenerate"

end CollisionPolicy

/-- Random identifiers that are still to be drawn, in the order of the draws. -/
structure Draws where
  ids : List ModuleId
  tags : List GraphTag

/-- The ids and tags that no further module may have. -/
structure Taken where
  ids : List ModuleId
  tags : List GraphTag

namespace Taken

def ofModules (modules : List Module) : Taken :=
  ⟨modules.map Module.id, modules.map Module.graphTag⟩

def add (t : Taken) (m : Module) : Taken := ⟨m.id :: t.ids, m.graphTag :: t.tags⟩

/-- Why a module cannot keep its identity, if it cannot. The id is looked at first. -/
def collision? (t : Taken) (m : Module) : Option Error :=
  if t.ids.contains m.id then some (.moduleCollision m.id m.name)
  else if t.tags.contains m.graphTag then some (.graphCollision m.graphTag m.name)
  else none

/-- Whether each module can keep its identity, when those before it keep theirs. -/
def accept : Taken → List Module → Except Error Unit
  | _, [] => .ok ()
  | t, m :: rest =>
    match t.collision? m with
    | some e => .error e
    | none => accept (t.add m) rest

/-- The first drawn id that is not taken, and the ids after it. -/
def freshId? (t : Taken) : List ModuleId → Option (ModuleId × List ModuleId)
  | [] => none
  | id :: rest => if t.ids.contains id then freshId? t rest else some (id, rest)

/-- Marks each module that cannot keep its identity with a drawn id. A kept identity and a
drawn id are taken for the modules after it; the tags of marked modules are not. Nothing
is answered if the draws run out. -/
def mark : Taken → List ModuleId → List Module →
    Option (List (Module × Option ModuleId) × Taken × List ModuleId)
  | t, draws, [] => some ([], t, draws)
  | t, draws, m :: rest =>
    match t.collision? m with
    | none => do
      let (marked, more) ← mark (t.add m) draws rest
      return ((m, none) :: marked, more)
    | some _ => do
      let (id, draws) ← t.freshId? draws
      let (marked, more) ← mark { t with ids := id :: t.ids } draws rest
      return ((m, some id) :: marked, more)

/-- Moves a module to an id and to one drawn tag after another, never to the tag it has,
until it comes to a tag that is not taken. -/
def move (t : Taken) (id : ModuleId) : Module → List GraphTag →
    Option (Module × List GraphTag)
  | _, [] => none
  | m, tag :: rest =>
    if tag = m.graphTag then move t id m rest
    else
      let moved := m.withIdentity id tag
      if t.tags.contains tag then move t id moved rest else some (moved, rest)

/-- Moves the marked modules, in order, and keeps the others. -/
def moveMarked : Taken → List GraphTag → List (Module × Option ModuleId) →
    Option (List Module × List GraphTag)
  | _, draws, [] => some ([], draws)
  | t, draws, (m, none) :: rest => do
    let (modules, more) ← moveMarked t draws rest
    return (m :: modules, more)
  | t, draws, (m, some id) :: rest => do
    let (moved, draws) ← t.move id m draws
    let (modules, more) ← moveMarked { t with tags := moved.graphTag :: t.tags } draws rest
    return (moved :: modules, more)

/-- The modules with their identities made distinct from the taken ones and from each other,
and the draws that are left. -/
def regenerate (t : Taken) (draws : Draws) (modules : List Module) :
    Option (List Module × Draws) := do
  let (marked, t, ids) ← t.mark draws.ids modules
  let (moved, tags) ← t.moveMarked draws.tags marked
  return (moved, ⟨ids, tags⟩)

end Taken

namespace Program

/-- Appends modules, and those tables whose names are new. -/
def append (p : Program) (modules : List Module) (aux : AuxTables) : Program where
  modules := p.modules ++ modules
  auxData := aux.entries.foldl
    (fun t (name, table) => if t.contains name then t else t.insert name table) p.auxData

/-- Appends every module of another program, or none of them. The answer is what is left of
the draws; there is none if the draws ran out, and then nothing is changed. -/
def merge (other : Program) (policy : CollisionPolicy) (draws : Draws) :
    Edit Program (Option Draws) := do
  let p ← get
  let taken := Taken.ofModules p.modules
  match policy with
  | .fail =>
    Edit.require id (taken.accept other.modules)
    set (p.append other.modules other.auxData)
    return some draws
  | .regenerate =>
    match taken.regenerate draws other.modules with
    | none => return none
    | some (modules, rest) =>
      set (p.append modules other.auxData)
      return some rest

end Program

end Disassembly
