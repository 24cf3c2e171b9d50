import Disassembly.Block

/-! Symbols, which are names for blocks, for addresses or for plain values. -/
namespace Disassembly

/-- What a symbol refers to. An address need not be that of a block. -/
inductive Referent where
  | block (id : BlockId)
  | address (a : UInt64)
  | value (v : Int64)
deriving DecidableEq

instance : ToString Referent where
  toString
    | .block id => toString id
    | .address a => Hex.address a
    | .value v => s!"={v}"

/-- What a referent turns out to be in its module. -/
inductive ReferentKind where
  | codeBlock | dataBlock | proxyBlock | absoluteAddress | absoluteValue
deriving DecidableEq

namespace ReferentKind

def ofBlock : BlockKind → ReferentKind
  | .code => codeBlock
  | .data => dataBlock
  | .proxy => proxyBlock

instance : ToString ReferentKind where
  toString
    | codeBlock => "CodeBlock"
    | dataBlock => "DataBlock"
    | proxyBlock => "ProxyBlock"
    | absoluteAddress => "AbsoluteAddress"
    | absoluteValue => "AbsoluteValue"

end ReferentKind

/-- A named reference. With `atEnd` it means the end of its block and not the start. -/
structure Symbol where
  name : String
  referent : Referent
  atEnd : Bool
deriving DecidableEq

namespace Symbol

def block (s : Symbol) : Option BlockId :=
  match s.referent with
  | .block id => some id
  | _ => none

instance : ToString Symbol where
  toString s := if s.atEnd then s!"{s.name} -> end of {s.referent}" else s!"{s.name} -> {s.referent}"

end Symbol

end Disassembly
