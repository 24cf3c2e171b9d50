import Disassembly.Text.Blank
import Disassembly.Text.Hex
import Disassembly.Text.Split

/-! Permission and layout flags of sections, and their written form. -/
namespace Disassembly

/-- A set of flags. Bits without a name are kept as they are. -/
structure SectionFlags where
  bits : UInt32
deriving DecidableEq, Inhabited

namespace SectionFlags

def readable : SectionFlags := ⟨1⟩
def writable : SectionFlags := ⟨2⟩
def executable : SectionFlags := ⟨4⟩
def loaded : SectionFlags := ⟨8⟩
def initialized : SectionFlags := ⟨16⟩
def threadLocal : SectionFlags := ⟨32⟩

/-- The flags that have names, in the order in which they are written. -/
def named : List (String × SectionFlags) :=
  [("READABLE", readable), ("WRITABLE", writable), ("EXECUTABLE", executable),
    ("LOADED", loaded), ("INITIALIZED", initialized), ("THREAD_LOCAL", threadLocal)]

def union (a b : SectionFlags) : SectionFlags := ⟨a.bits ||| b.bits⟩

instance : OrOp SectionFlags := ⟨union⟩

/-- Whether every flag of `b` is among those of `a`. -/
def includes (a b : SectionFlags) : Bool := a.bits &&& b.bits = b.bits

/-- The flags of a usual section of code. -/
def code : SectionFlags := readable ||| executable ||| loaded ||| initialized

/-- The flags of a usual section of initialized data. -/
def data : SectionFlags := readable ||| writable ||| loaded ||| initialized

/-- Readable and executable code that cannot be written. -/
def isCode (f : SectionFlags) : Bool :=
  f.includes (readable ||| executable) && !f.includes writable

/-- The permissions, one letter or dash each. -/
instance : ToString SectionFlags where
  toString f :=
    String.ofList [if f.includes readable then 'r' else '-',
      if f.includes writable then 'w' else '-', if f.includes executable then 'x' else '-']

/-- The bits without a name. -/
def unnamed (f : SectionFlags) : UInt32 :=
  f.bits &&& (0xffffffff ^^^ (named.foldl (fun all e => all ||| e.2.bits) 0))

/-- The written form: names with bars between them, and unnamed bits as one number at the
end. No flags give an empty text. -/
def text (f : SectionFlags) : String :=
  let names := (named.filter fun e => f.includes e.2).map Prod.fst
  let rest := if f.unnamed = 0 then [] else ["0x" ++ Hex.ofNat f.unnamed.toNat]
  String.intercalate " | " (names ++ rest)

/-- One part of the written form: a name, or a number after `0x` with a plus sign allowed
in front of its digits. -/
def ofPart? (part : List Char) : Option SectionFlags :=
  match part with
  | '0' :: 'x' :: number =>
    let digits := if number.head? = some '+' then number.tail else number
    if digits = [] then none
    else (Hex.nat? digits).bind fun n => if n < UInt32.size then some ⟨UInt32.ofNat n⟩ else none
  | _ => named.lookup (String.ofList part)

/-- Reads the written form. White space around the parts is ignored, names may come in any
order and more than once, and a blank text has no flags. -/
def ofText? (text : String) : Option SectionFlags :=
  let cs := text.toList
  if trimBlanks cs = [] then some ⟨0⟩
  else (splitAtEach '|' cs).foldlM (fun f part => (ofPart? (trimBlanks part)).map (f ||| ·)) ⟨0⟩

end SectionFlags

end Disassembly
