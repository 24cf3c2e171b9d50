import Disassembly.Id

/-! Typed control-flow edges between two blocks of one graph. -/
namespace Disassembly

/-- The way in which control passes along an edge. -/
inductive EdgeKind where
  | branch | call | fallthrough | return | syscall | sysret
deriving DecidableEq, Inhabited

namespace EdgeKind

/-- The kinds in the order in which archives number them. -/
def all : List EdgeKind := [.branch, .call, .fallthrough, .return, .syscall, .sysret]

/-- The name in documents. -/
def name : EdgeKind → String
  | branch => "Branch"
  | call => "Call"
  | fallthrough => "Fallthrough"
  | «return» => "Return"
  | syscall => "Syscall"
  | sysret => "Sysret"

instance : ToString EdgeKind where
  toString
    | .branch => "branch"
    | .call => "call"
    | .fallthrough => "fallthrough"
    | .return => "return"
    | .syscall => "syscall"
    | .sysret => "sysret"

end EdgeKind

/-- A conditional edge is taken only when a condition holds. A direct edge has its target
in the instruction. -/
structure EdgeLabel where
  kind : EdgeKind
  conditional : Bool := false
  direct : Bool := true
deriving DecidableEq

instance : ToString EdgeLabel where
  toString l :=
    let condition := if l.conditional then "conditional" else "unconditional"
    let direction := if l.direct then "direct" else "indirect"
    s!"{l.kind} ({condition}, {direction})"

structure Edge where
  source : BlockId
  target : BlockId
  label : EdgeLabel
deriving DecidableEq

namespace Edge

def kind (e : Edge) : EdgeKind := e.label.kind

def isCall (e : Edge) : Bool := e.kind = .call

instance : ToString Edge := ⟨fun e => s!"{e.source} -> {e.target} [{e.label}]"⟩

end Edge

end Disassembly
