import Disassembly.Wire.Reader

/-! Whole numbers in as few bytes as their size asks for. -/
namespace Disassembly

/-- The last `width` digits of a number to the base 256, least significant first. -/
def littleEndian : Nat → Nat → List UInt8
  | 0, _ => []
  | width + 1, n => UInt8.ofNat n :: littleEndian width (n / 256)

def ofLittleEndian : List UInt8 → Nat
  | [] => 0
  | b :: rest => b.toNat + 256 * ofLittleEndian rest

/-- Numbers below 251 are one byte. Larger ones follow a mark that gives their width. -/
def writeVarint (n : Nat) : List UInt8 :=
  if n < 251 then [UInt8.ofNat n]
  else if n < UInt16.size then 251 :: littleEndian 2 n
  else if n < UInt32.size then 252 :: littleEndian 4 n
  else 253 :: littleEndian 8 n

/-- Reads a number in any of its widths, up to eight bytes if `wide` and four if not. -/
def readVarint (wide : Bool) : Reader Nat := do
  let mark ← Reader.byte
  if mark < 251 then
    return mark.toNat
  else if mark = 251 then
    return ofLittleEndian (← Reader.take 2)
  else if mark = 252 then
    return ofLittleEndian (← Reader.take 4)
  else if mark = 253 && wide then
    return ofLittleEndian (← Reader.take 8)
  else failure

/-- Numbers both ways from zero, so that small ones of either sign stay small. -/
def zigzag (v : Int) : Nat := if 0 ≤ v then (2 * v).toNat else (-2 * v - 1).toNat

def unzigzag (n : Nat) : Int := if n % 2 = 0 then n / 2 else -((n + 1) / 2)

end Disassembly
