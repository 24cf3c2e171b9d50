import Disassembly.Table
import Disassembly.Wire.Varint

/-! The binary form of values, as one writer and one reader for each type. -/
namespace Disassembly

/-- The binary form of a type. -/
structure Wire (α : Type) where
  write : α → List UInt8
  read : Reader α

namespace Wire

variable {α β : Type}

/-- The form of a type whose values stand for those of another. -/
def as (w : Wire α) (make : α → β) (view : β → α) : Wire β where
  write b := w.write (view b)
  read := do return make (← w.read)

/-- The form of a type whose values stand for some of those of another. -/
def restrict (w : Wire α) (make? : α → Option β) (view : β → α) : Wire β where
  write b := w.write (view b)
  read := do
    let a ← w.read
    StateT.lift (make? a)

/-- Two values, one behind the other. -/
def pair (w : Wire α) (v : Wire β) : Wire (α × β) where
  write ab := w.write ab.1 ++ v.write ab.2
  read := do
    let a ← w.read
    let b ← v.read
    return (a, b)

def word32 : Wire UInt32 where
  write n := writeVarint n.toNat
  read := do
    Reader.claim 4
    return UInt32.ofNat (← readVarint false)

def word64 : Wire UInt64 where
  write n := writeVarint n.toNat
  read := do
    Reader.claim 8
    return UInt64.ofNat (← readVarint true)

def int64 : Wire Int64 where
  write v := writeVarint (zigzag v.toInt)
  read := do
    Reader.claim 8
    return Int64.ofInt (unzigzag (← readVarint true))

/-- The length of a list or text that follows. -/
def length : Wire Nat where
  write := writeVarint
  read := do
    Reader.claim 8
    readVarint true

def bool : Wire Bool where
  write b := [if b then 1 else 0]
  read := do
    Reader.claim 1
    match ← Reader.byte with
    | 0 => return false
    | 1 => return true
    | _ => failure

/-- A byte that says whether a value follows. -/
def option (w : Wire α) : Wire (Option α) where
  write
    | none => [0]
    | some a => 1 :: w.write a
  read := do
    if ← bool.read then return some (← w.read) else return none

/-- A length and that many bytes. -/
def bytes : Wire (List UInt8) where
  write l := length.write l.length ++ l
  read := do
    let n ← length.read
    Reader.claim n
    Reader.take n

/-- The bytes of a text in UTF-8. Other bytes are refused. -/
def text : Wire String :=
  bytes.restrict (fun l => String.fromUTF8? ⟨l.toArray⟩) fun s => s.toUTF8.toList

/-- A count and that many values. -/
def list (w : Wire α) : Wire (List α) where
  write l := length.write l.length ++ l.flatMap w.write
  read := do
    let n ← length.read
    w.read.many n []

/-- The entries of a map in key order. They are read in any order, and of two entries with
one key the later counts. -/
def table {κ : Type} [Ord κ] [Std.TransOrd κ] [Std.LawfulEqOrd κ] (k : Wire κ) (w : Wire α) :
    Wire (Table κ α) :=
  (k.pair w).list.as Table.ofList Table.entries

/-- The place of a value in a list of all values. -/
def enumeration [DecidableEq α] (all : List α) : Wire α where
  write a := word32.write (UInt32.ofNat (all.idxOf a))
  read := do
    let i ← word32.read
    StateT.lift all[i.toNat]?

end Wire

end Disassembly
