/-! Readers take a value off the front of the bytes that are left. A reader also claims memory
for what it is about to build, and stops when the claims pass a budget, so that a forged
length does no harm. -/
namespace Disassembly

/-- What a reader has before it. Without a budget nothing is ever refused as too large. -/
structure Cursor where
  bytes : List UInt8
  budget : Option Nat

abbrev Reader (α : Type) := StateT Cursor Option α

namespace Reader

/-- Counts `n` bytes of memory against the budget. -/
def claim (n : Nat) : Reader Unit := fun c =>
  match c.budget with
  | none => some ((), c)
  | some left => if n ≤ left then some ((), { c with budget := some (left - n) }) else none

def byte : Reader UInt8 := fun c =>
  match c.bytes with
  | [] => none
  | b :: rest => some (b, { c with bytes := rest })

/-- The next `n` bytes, of which none may be missing. -/
def take (n : Nat) : Reader (List UInt8) := fun c =>
  if n ≤ c.bytes.length then some (c.bytes.take n, { c with bytes := c.bytes.drop n }) else none

/-- As many values as a count says, one after the other. -/
def many {α : Type} (item : Reader α) : Nat → List α → Reader (List α)
  | 0, done => pure done.reverse
  | n + 1, done => do
    let a ← item
    many item n (a :: done)

end Reader

end Disassembly
