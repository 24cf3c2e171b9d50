import Disassembly.Proofs.Chronicle
import Disassembly.Proofs.StructuralQueries

/-! Lookup by address. Ranges are half open and counted without wrapping around. What is accepted
ends at an address, so the arithmetic of words never falls short of this, and along any history a
lookup answers with what the log of the history tells, in the order in which it came. -/
namespace Disassembly

/-- Whether an address lies in the range of `size` bytes from `start`. -/
def Covers (start size a : UInt64) : Prop :=
  start.toNat ≤ a.toNat ∧ a.toNat < start.toNat + size.toNat

instance (start size a : UInt64) : Decidable (Covers start size a) :=
  inferInstanceAs (Decidable (_ ∧ _))

/-- Whether an address lies in the range of the block. A block without an address has none. -/
def Block.Covers (b : Block) (a : UInt64) : Prop :=
  match b.address, b.size with
  | some start, some size => Disassembly.Covers start size a
  | _, _ => False

instance : (b : Block) → (a : UInt64) → Decidable (b.Covers a)
  | .code (some start) size _, a | .data (some start) size, a =>
      inferInstanceAs (Decidable (Covers start size a))
  | .code none _ _, _ | .data none _, _ | .proxy, _ => inferInstanceAs (Decidable False)

theorem Section.contains_eq_covers (x : Section) (a : UInt64) :
    x.contains a = decide (Covers x.start x.size a) := by
  rw [Bool.eq_iff_iff, decide_eq_true_eq]
  exact contains_iff

namespace Block

variable {b : Block} {a : UInt64}

/-- A block with an address contains what a section at its place would. -/
theorem contains_eq_covers (b : Block) (a : UInt64) : b.contains a = decide (b.Covers a) := by
  have hRange : ∀ start size : UInt64, (start ≤ a && a - start < size) =
      decide (Disassembly.Covers start size a) := fun start size =>
    Section.contains_eq_covers ⟨"", start, size, default⟩ a
  match b with
  | code (some start) size _ => exact hRange start size
  | data (some start) size => exact hRange start size
  | code none _ _ => rfl
  | data none _ => rfl
  | proxy => rfl

end Block

namespace Module

variable {start now : Module} {log : List Event}

/-- What is found under an id is what the log tells of it. -/
theorem AsTold.block?_eq_some_iff (h : start.AsTold log now) {id : BlockId} {b : Block} :
    now.blocks.block? id = some b ↔
      id.graph = now.graphTag ∧ (id.index, b) ∈ blocksTold start.blocks.blocks.entries log := by
  rw [BlockGraph.block?_eq_some_iff, Table.get?_eq_some_iff_mem, h.blocks]
  rfl

/-- Sections at an address, read off the log. -/
theorem AsTold.sectionsOn (h : start.AsTold log now) (a : UInt64) :
    now.sections.sectionsOn a = (sectionsTold start.sections.sectionList log).filter
      fun x => Covers x.2.start x.2.size a := by
  rw [AddressSpace.sectionsOn, h.sections]
  exact List.filter_congr fun x _ => x.2.contains_eq_covers a

/-- Blocks at an address, read off the log. -/
theorem AsTold.blocksAt (h : start.AsTold log now) (a : UInt64) :
    now.blocks.blocksAt a = ((blocksTold start.blocks.blocks.entries log).filter
      fun x => x.2.Covers a).map fun x => (now.blocks.idOf x.1, x.2) := by
  rw [BlockGraph.blocksAt, BlockGraph.blockList, h.blocks, List.filter_map]
  refine congrArg (List.map _) (List.filter_congr fun x _ => ?_)
  exact x.2.contains_eq_covers a

end Module

end Disassembly
