import Disassembly.Consistency
import Disassembly.Digest.Blake3
import Disassembly.Wire.Model

/-! The archive of a program: four bytes that mark it as one, the version of the format, the
digest of the payload, and the payload itself. Reading is all or nothing. The content is
checked against every rule of a program before it is handed out. -/
namespace Disassembly

/-- How archives are to be read and stored. -/
structure ArchiveOptions where
  maxFileSize : UInt64 := 1073741824
  verifyChecksum : Bool := true
  atomicSave : Bool := true
deriving DecidableEq

namespace Archive

/-- The letters `BLIR`. -/
def magic : List UInt8 := [0x42, 0x4c, 0x49, 0x52]

/-- The newest version of the format, and the one that is written. -/
def version : UInt32 := 1

def headerLength : Nat := 40

def payload (p : Program) : List UInt8 := Program.wire.write p

/-- The digest of the payload, in hexadecimal. Programs with the same content share it. -/
def digest (p : Program) : String := String.ofList (Hex.ofBytes (Blake3.hash (payload p)))

def encode (p : Program) : List UInt8 :=
  magic ++ littleEndian 4 version.toNat ++ Blake3.hash (payload p) ++ payload p

/-- The budget for reading a payload of `n` bytes. It is one of four sizes, none of which an
honest payload of that length comes near. -/
def budget (n : Nat) : Nat :=
  let need := n * 16 + 4096
  if need ≤ 0x100000 then 0x100000
  else if need ≤ 0x1000000 then 0x1000000
  else if need ≤ 0x10000000 then 0x10000000
  else 0xffffffff

/-- Reads stored content off a payload under a budget, if there is one. The answer also says
how many bytes it took. Nothing is checked yet. -/
def readPayload (limit : Option Nat) (bytes : List UInt8) : Option (Program × Nat) :=
  (Program.wire.read ⟨bytes, limit⟩).map fun (p, rest) =>
    (p, bytes.length - rest.bytes.length)

/-- Stored content that is not that of a program is reported as such. -/
def accept (p : Program) : Except Error Program :=
  p.accept.mapError fun violation => .corrupt (.inconsistent violation)

/-- Reads a payload to its end, and looks at the rules of a program last. -/
def decodePayload (content : List UInt8) : Except Error Program :=
  match readPayload (some (budget content.length)) content with
  | none => .error (.corrupt .unreadable)
  | some (p, taken) =>
    if taken ≠ content.length then
      .error (.corrupt (.trailingBytes (content.length - taken)))
    else accept p

/-- Reads an archive. The header is looked at field by field, then the digest if that is
wanted, then the payload. -/
def decode (options : ArchiveOptions) (bytes : List UInt8) : Except Error Program :=
  let found := UInt32.ofNat (ofLittleEndian ((bytes.drop 4).take 4))
  let stored := (bytes.drop 8).take 32
  let content := bytes.drop headerLength
  if bytes.length < headerLength then .error (.corrupt (.truncatedHeader bytes.length))
  else if bytes.take 4 ≠ magic then .error (.corrupt (.badMagic (bytes.take 4)))
  else if found = 0 then .error (.corrupt .versionZero)
  else if version < found then .error (.unsupportedVersion found version)
  else if options.verifyChecksum ∧ Blake3.hash content ≠ stored then
    .error (.corrupt (.digestMismatch stored (Blake3.hash content)))
  else decodePayload content

end Archive

end Disassembly
