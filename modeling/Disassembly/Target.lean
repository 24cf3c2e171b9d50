/-! The machine and the file format that a module was built for. Each type lists its values
in the order in which archives number them, and names them as documents do. -/
namespace Disassembly

inductive Architecture where
  | x86 | x86_64 | arm | aarch64 | mips | mips64 | ppc | ppc64 | unknown
deriving DecidableEq, Inhabited

namespace Architecture

def all : List Architecture :=
  [.x86, .x86_64, .arm, .aarch64, .mips, .mips64, .ppc, .ppc64, .unknown]

/-- The name in documents. -/
def name : Architecture → String
  | x86 => "X86"
  | x86_64 => "X86_64"
  | arm => "ARM"
  | aarch64 => "AArch64"
  | mips => "MIPS"
  | mips64 => "MIPS64"
  | ppc => "PPC"
  | ppc64 => "PPC64"
  | unknown => "Unknown"

instance : ToString Architecture where
  toString
    | .x86 => "x86"
    | .x86_64 => "x86_64"
    | .arm => "arm"
    | .aarch64 => "aarch64"
    | .mips => "mips"
    | .mips64 => "mips64"
    | .ppc => "ppc"
    | .ppc64 => "ppc64"
    | .unknown => "unknown"

def is64Bit : Architecture → Bool
  | x86_64 | aarch64 | mips64 | ppc64 => true
  | _ => false

/-- The width of an address. An unknown machine counts as one of 32 bits. -/
def addressBits (a : Architecture) : Nat := if a.is64Bit then 64 else 32

end Architecture

inductive ByteOrder where
  | little | big
deriving DecidableEq, Inhabited

namespace ByteOrder

def all : List ByteOrder := [.little, .big]

/-- The name in documents. -/
def name : ByteOrder → String
  | little => "Little"
  | big => "Big"

instance : ToString ByteOrder := ⟨name⟩

end ByteOrder

inductive FileFormat where
  | elf | pe | machO | raw | unknown
deriving DecidableEq, Inhabited

namespace FileFormat

def all : List FileFormat := [.elf, .pe, .machO, .raw, .unknown]

/-- The name in documents. -/
def name : FileFormat → String
  | elf => "ELF"
  | pe => "PE"
  | machO => "MachO"
  | raw => "Raw"
  | unknown => "Unknown"

instance : ToString FileFormat := ⟨name⟩

end FileFormat

end Disassembly
