import Disassembly.SectionFlags

/-! Sections, which are named address ranges with permission and layout flags. -/
namespace Disassembly

/-- A half-open range of addresses from `start`, `size` bytes long. -/
structure Section where
  name : String
  start : UInt64
  size : UInt64
  flags : SectionFlags
deriving DecidableEq

/-- Why a section is refused. -/
inductive SectionFault where
  | emptyName
  | overflow (name : String) (start size : UInt64)
  | idsExhausted
deriving DecidableEq

def SectionFault.message : SectionFault → String
  | emptyName => "section name cannot be empty"
  | overflow name start size =>
    let range := s!"at {Hex.address start} with size {Hex.address size}"
    s!"section '{name}' {range} overflows the address space"
  | idsExhausted => "section id space exhausted"

namespace Section

/-- The first address after the section, or the largest address if that lies beyond it. -/
def endAddress (s : Section) : UInt64 :=
  UInt64.ofNat (min (s.start.toNat + s.size.toNat) (UInt64.size - 1))

def contains (s : Section) (a : UInt64) : Bool := s.start ≤ a && a - s.start < s.size

def isExecutable (s : Section) : Bool := s.flags.includes .executable

def isWritable (s : Section) : Bool := s.flags.includes .writable

/-- Refuses a section without a name or with its end beyond the largest address. -/
def validate (s : Section) : Except SectionFault Unit :=
  if s.name = "" then .error .emptyName
  else if s.start.toNat + s.size.toNat < UInt64.size then .ok ()
  else .error (.overflow s.name s.start s.size)

def description (s : Section) : String :=
  let range := s!"[{Hex.address s.start}, {Hex.address s.endAddress})"
  s!"Section '{s.name}' {range} ({s.size} bytes, perms: {s.flags})"

instance : ToString Section := ⟨fun s => s!"Section '{s.name}' @ {Hex.address s.start}"⟩

end Section

end Disassembly
