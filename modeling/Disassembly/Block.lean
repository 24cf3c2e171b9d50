import Disassembly.Id

/-! Blocks. Code and data blocks span bytes of their module and may have an address. A proxy
block stands for a target outside the module and has none. -/
namespace Disassembly

inductive BlockKind where
  | code | data | proxy
deriving DecidableEq, Inhabited

namespace BlockKind

/-- The name in documents. -/
def name : BlockKind → String
  | code => "Code"
  | data => "Data"
  | proxy => "Proxy"

instance : ToString BlockKind where
  toString
    | .code => "code"
    | .data => "data"
    | .proxy => "proxy"

def all : List BlockKind := [.code, .data, .proxy]

end BlockKind

/-- What a caller says of a block that is to be made. A missing size is zero. -/
structure BlockAttributes where
  address : Option UInt64 := none
  size : Option UInt64 := none
  decodeMode : UInt64 := 0
deriving DecidableEq

/-- Why a block is refused. -/
inductive BlockFault where
  | proxyExtent
  | proxyDecodeMode
  | proxyAddress
  | dataDecodeMode
  | overflow (address size : UInt64)
  | blockIdsExhausted
  | edgeIdsExhausted
  | symbolIdsExhausted
deriving DecidableEq

def BlockFault.message : BlockFault → String
  | proxyExtent => "proxy blocks cannot have an address or size"
  | proxyDecodeMode => "proxy blocks cannot have a decode mode"
  | proxyAddress => "proxy blocks cannot have an address"
  | dataDecodeMode => "data blocks cannot have a decode mode"
  | overflow address size =>
    s!"block at {Hex.address address} with size {Hex.address size} overflows the address space"
  | blockIdsExhausted => "block id space exhausted"
  | edgeIdsExhausted => "edge id space exhausted"
  | symbolIdsExhausted => "symbol id space exhausted"

inductive Block where
  | code (address : Option UInt64) (size decodeMode : UInt64)
  | data (address : Option UInt64) (size : UInt64)
  | proxy
deriving DecidableEq

namespace Block

def kind : Block → BlockKind
  | code .. => .code
  | data .. => .data
  | proxy => .proxy

def address : Block → Option UInt64
  | code a _ _ => a
  | data a _ => a
  | proxy => none

def size : Block → Option UInt64
  | code _ n _ => some n
  | data _ n => some n
  | proxy => none

/-- How instructions are to be read, for code alone. -/
def decodeMode : Block → Option UInt64
  | code _ _ mode => some mode
  | _ => none

def isCode (b : Block) : Bool := b.kind = .code

def isData (b : Block) : Bool := b.kind = .data

def isProxy (b : Block) : Bool := b.kind = .proxy

/-- The same block at another address. A proxy block has no address to change. -/
def withAddress (a : Option UInt64) : Block → Except BlockFault Block
  | code _ n mode => .ok (code a n mode)
  | data _ n => .ok (data a n)
  | proxy => .error .proxyAddress

/-- Refuses a block whose end lies beyond the largest address. -/
def validate (b : Block) : Except BlockFault Unit :=
  match b.address, b.size with
  | some a, some n => if a.toNat + n.toNat < UInt64.size then .ok () else .error (.overflow a n)
  | _, _ => .ok ()

/-- Makes a block of the given kind, with the faults of the attributes in front of that of
the range. -/
def ofAttributes (kind : BlockKind) (attributes : BlockAttributes) : Except BlockFault Block := do
  let size := attributes.size.getD 0
  let block ← match kind with
    | .code => pure (code attributes.address size attributes.decodeMode)
    | .data =>
      if attributes.decodeMode ≠ 0 then throw .dataDecodeMode
      else pure (data attributes.address size)
    | .proxy =>
      if attributes.address.isSome ∨ attributes.size.isSome then throw .proxyExtent
      else if attributes.decodeMode ≠ 0 then throw .proxyDecodeMode
      else pure proxy
  block.validate
  return block

/-- Whether an address lies among the bytes of the block. -/
def contains (b : Block) (a : UInt64) : Bool :=
  match b.address, b.size with
  | some start, some n => start ≤ a && a - start < n
  | _, _ => false

instance : ToString Block where
  toString b :=
    match b.address, b.size with
    | some a, some n => s!"{b.kind} block @ {Hex.address a} ({n} bytes)"
    | none, some n => s!"{b.kind} block ({n} bytes)"
    | _, _ => s!"{b.kind} block"

end Block

end Disassembly
