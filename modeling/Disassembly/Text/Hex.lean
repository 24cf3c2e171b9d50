/-! Hexadecimal text. Digits are written in lower case and read in either case. -/
namespace Disassembly.Hex

/-- The two digits of a byte, most significant first. -/
def ofByte (b : UInt8) : List Char :=
  [Nat.digitChar (b.toNat / 16), Nat.digitChar (b.toNat % 16)]

/-- Two digits for each byte, in the order of the bytes. -/
def ofBytes (bytes : List UInt8) : List Char := bytes.flatMap ofByte

/-- The fewest digits that denote `n`. -/
def ofNat (n : Nat) : String := String.ofList (Nat.toDigits 16 n)

/-- An address as it stands in messages. -/
def address (a : UInt64) : String := "0x" ++ ofNat a.toNat

/-- The value of one digit. -/
def digit? (c : Char) : Option Nat :=
  if '0' ≤ c ∧ c ≤ '9' then some (c.toNat - 48)
  else if 'a' ≤ c ∧ c ≤ 'f' then some (c.toNat - 87)
  else if 'A' ≤ c ∧ c ≤ 'F' then some (c.toNat - 55)
  else none

/-- The number that a run of digits denotes. An empty run denotes zero. -/
def nat? (digits : List Char) : Option Nat :=
  digits.foldlM (fun n c => (digit? c).map (16 * n + ·)) 0

/-- The bytes that an even run of digits denotes. -/
def bytes? : List Char → Option (List UInt8)
  | [] => some []
  | [_] => none
  | high :: low :: rest => do
    let h ← digit? high
    let l ← digit? low
    let bytes ← bytes? rest
    return UInt8.ofNat (16 * h + l) :: bytes

end Disassembly.Hex
