import Disassembly.Json
import Disassembly.Table

/-! The JSON form of values, as one writer and one reader for each type. Readers are strict
about types and ranges and about repeated fields, and pass over fields they do not know. -/
namespace Disassembly.Json

/-- The JSON form of a type. -/
structure Form (α : Type) where
  write : α → Json
  read : Json → Option α

/-- The form of the keys of a map, as the written names of an object. -/
structure KeyForm (κ : Type) where
  write : κ → List Char
  read : List Char → Option κ

/-- The form of a sequence of named fields. A missing field is read as nothing. -/
structure Record (α : Type) where
  names : List String
  write : α → List Json
  read : List (Option Json) → Option α

/-- The name and the content of an alternative. It is written as a text if there is nothing to
say but its name, and else as an object with one member. -/
def alternative? : Json → Option (List Char × Option Json)
  | .string written => (unescape? written).map fun name => (name, none)
  | .object [(written, content)] => (unescape? written).map fun name => (name, some content)
  | _ => none

/-- The one member that a name has, or nothing. A name that is repeated is refused. -/
def member? (members : List (List Char × Json)) (name : String) : Option (Option Json) :=
  match members.filter fun e => e.1 = name.toList with
  | [] => some none
  | [(_, v)] => some (some v)
  | _ => none

/-- The values of fields, by their names in an object or by their places in an array. An array
must have all of them, or may end early if `short` is set. -/
def fields? (names : List String) (short : Bool) : Json → Option (List (Option Json))
  | .object members => do
    let members ← members.mapM fun (written, v) => (unescape? written).map fun name => (name, v)
    names.mapM (member? members)
  | .array items =>
    if items.length = names.length ∨ short ∧ items.length < names.length then
      some (items.map some ++ List.replicate (names.length - items.length) none)
    else none
  | _ => none

namespace Form

variable {α β : Type}

/-- The form of a type whose values stand for those of another. -/
def as (f : Form α) (make : α → β) (view : β → α) : Form β where
  write b := f.write (view b)
  read v := (f.read v).map make

/-- The form of a type whose values stand for some of those of another. -/
def restrict (f : Form α) (make? : α → Option β) (view : β → α) : Form β where
  write b := f.write (view b)
  read v := (f.read v).bind make?

def bool : Form Bool where
  write := .bool
  read
    | .bool b => some b
    | _ => none

def text : Form String where
  write s := .string (escape s.toList)
  read
    | .string written => (unescape? written).map String.ofList
    | _ => none

/-- Numbers below a bound. -/
def nat (bound : Nat) : Form Nat where
  write n := .number (decimal n)
  read
    | .number written => (nat? written).bind fun n => if n < bound then some n else none
    | _ => none

def byte : Form UInt8 := (nat UInt8.size).as UInt8.ofNat UInt8.toNat

def word32 : Form UInt32 := (nat UInt32.size).as UInt32.ofNat UInt32.toNat

def word64 : Form UInt64 := (nat UInt64.size).as UInt64.ofNat UInt64.toNat

def int64 : Form Int64 where
  write v :=
    .number (if v.toInt < 0 then '-' :: decimal v.toInt.natAbs else decimal v.toInt.natAbs)
  read
    | .number written =>
      (int? written).bind fun v =>
        if Int64.minValue.toInt ≤ v ∧ v ≤ Int64.maxValue.toInt then some (Int64.ofInt v) else none
    | _ => none

def option (f : Form α) : Form (Option α) where
  write
    | none => .null
    | some a => f.write a
  read
    | .null => some none
    | v => (f.read v).map some

def list (f : Form α) : Form (List α) where
  write l := .array (l.map f.write)
  read
    | .array items => items.mapM f.read
    | _ => none

/-- The entries of a map in key order. They are read in any order, and of two entries with
one key the later counts. -/
def table {κ : Type} [Ord κ] [Std.TransOrd κ] [Std.LawfulEqOrd κ] (k : KeyForm κ) (f : Form α) :
    Form (Table κ α) where
  write t := .object (t.entries.map fun (key, a) => (k.write key, f.write a))
  read
    | .object members =>
      (members.mapM fun (written, v) => do return (← k.read written, ← f.read v)).map Table.ofList
    | _ => none

/-- Values that are written by name. A name may also stand before an empty content. -/
def enumeration (all : List α) (name : α → String) : Form α where
  write a := .string (escape (name a).toList)
  read v :=
    match alternative? v with
    | some (found, none) | some (found, some .null) => all.find? fun a => (name a).toList = found
    | _ => none

/-- A record as an object of its fields. -/
def record (r : Record α) (short : Bool := false) : Form α where
  write a := .object ((r.names.map fun n => escape n.toList).zip (r.write a))
  read v := (fields? r.names short v).bind r.read

end Form

namespace KeyForm

def text : KeyForm String where
  write s := escape s.toList
  read written := (unescape? written).map String.ofList

/-- Indices as plain numbers. No escape is allowed in them. -/
def index : KeyForm UInt32 where
  write n := decimal n.toNat
  read written :=
    (nat? written).bind fun n => if n < UInt32.size then some (UInt32.ofNat n) else none

end KeyForm

namespace Record

variable {α β : Type}

/-- One field. If it is missing, the value in `absent` stands for it, if there is one. -/
def field (name : String) (f : Form α) (absent : Option α := none) : Record α where
  names := [name]
  write a := [f.write a]
  read
    | [some v] => f.read v
    | [none] => absent
    | _ => none

/-- One field that may be missing. -/
def optionalField (name : String) (f : Form α) : Record (Option α) :=
  field name f.option (some none)

/-- The fields of one record before those of another. -/
def and (r : Record α) (s : Record β) : Record (α × β) where
  names := r.names ++ s.names
  write ab := r.write ab.1 ++ s.write ab.2
  read values := do
    let a ← r.read (values.take r.names.length)
    let b ← s.read (values.drop r.names.length)
    return (a, b)

end Record

end Disassembly.Json
