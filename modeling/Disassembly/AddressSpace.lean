import Disassembly.Edit
import Disassembly.Table

/-! The sections of a module. Ranges may overlap, since overlays map several sections to the
same bytes, so a lookup answers with every hit. -/
namespace Disassembly

structure AddressSpace where
  nextSection : UInt32 := 0
  sections : Table UInt32 Section := ∅
deriving DecidableEq, Inhabited

namespace AddressSpace

def section? (s : AddressSpace) (id : SectionId) : Option Section := s.sections.get? id.index

def size (s : AddressSpace) : Nat := s.sections.size

def isEmpty (s : AddressSpace) : Bool := s.sections.isEmpty

/-- All sections, in the order in which they were added. -/
def sectionList (s : AddressSpace) : List (SectionId × Section) :=
  s.sections.entries.map fun (index, x) => (⟨index⟩, x)

def sectionsOn (s : AddressSpace) (a : UInt64) : List (SectionId × Section) :=
  s.sectionList.filter fun (_, x) => x.contains a

def sectionNamesAt (s : AddressSpace) (a : UInt64) : List String :=
  (s.sectionsOn a).map fun (_, x) => x.name

def sectionsNamed (s : AddressSpace) (name : String) : List (SectionId × Section) :=
  s.sectionList.filter fun (_, x) => x.name = name

/-- Adds a section. The section itself is looked at before the supply of indices. -/
def addSection (x : Section) : Edit AddressSpace SectionId := do
  Edit.require .invalidSection x.validate
  let s ← get
  let next ← Edit.demand (.invalidSection .idsExhausted) (nextIndex? s.nextSection)
  set { s with nextSection := next, sections := s.sections.insert s.nextSection x }
  return ⟨s.nextSection⟩

/-- Removes a section, if it is there. -/
def removeSection (id : SectionId) : Edit AddressSpace (Option Section) := do
  let s ← get
  set { s with sections := s.sections.erase id.index }
  return s.section? id

end AddressSpace

end Disassembly
