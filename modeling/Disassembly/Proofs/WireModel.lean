import Disassembly.Proofs.WireRoundTrip

/-! Every binary form of the model is faithful. What is derived from other content is not
written, so a graph, a table of symbols, a module and a program come back without it. -/
namespace Disassembly

open Wire

/-- An id is written as its sixteen bytes with their number in front, and the reader asks for that
number. -/
theorem Uuid.faithful_wire : Uuid.wire.Faithful id :=
  faithful_bytes.restrict fun u => dif_pos u.length_bytes

theorem ModuleId.faithful_wire : ModuleId.wire.Faithful id := Uuid.faithful_wire.as fun _ => rfl

theorem GraphTag.faithful_wire : GraphTag.wire.Faithful id := Uuid.faithful_wire.as fun _ => rfl

/-- A block id is written as the tag of its graph and its index. -/
theorem BlockId.faithful_wire : BlockId.wire.Faithful id :=
  (GraphTag.faithful_wire.pair faithful_word32).as fun _ => rfl

/-- A kind is written as its place among all kinds. -/
theorem EdgeKind.faithful_wire : (enumeration EdgeKind.all).Faithful id :=
  faithful_enumeration (fun k => by cases k <;> decide) (by decide)

/-- The kind of an edge comes back with both of its flags. -/
theorem EdgeLabel.faithful_wire : EdgeLabel.wire.Faithful id :=
  (EdgeKind.faithful_wire.pair (faithful_bool.pair faithful_bool)).as fun _ => rfl

theorem Edge.faithful_wire : Edge.wire.Faithful id :=
  (BlockId.faithful_wire.pair (BlockId.faithful_wire.pair EdgeLabel.faithful_wire)).as fun _ => rfl

/-- The content of a form that numbers its alternatives stands behind the number. -/
theorem exists_yields_tagged {α β : Type} {w : Wire α} (h : w.Faithful id) (tag : UInt32)
    (make : α → β) (a : α) {f : UInt32 → Reader β}
    (hAlternative : f tag = do return make (← w.read))
    (hLength : (word32.write tag ++ w.write a).length < UInt64.size) :
    ∃ cost, cost ≤ 8 * (word32.write tag ++ w.write a).length ∧
      (word32.read >>= f).Yields (word32.write tag ++ w.write a) cost (make a) := by
  rw [List.length_append] at hLength ⊢
  obtain ⟨cost, hCost, hTag⟩ := faithful_word32.reads tag (by omega)
  obtain ⟨cost', hCost', hContent⟩ := h.reads a (by omega)
  refine ⟨cost + cost', by omega, hTag.bind ?_⟩
  rw [id, hAlternative]
  exact hContent.map make

/-- The kinds of blocks are numbered from zero, by cases on the kind. A proxy is its number and
nothing more. -/
theorem Block.faithful_wire : Block.wire.Faithful id where
  nonempty
    | .code .. | .data .. =>
        fun h => faithful_word32.nonempty _ (List.append_eq_nil_iff.mp h).1
    | .proxy => faithful_word32.nonempty 2
  reads b hLength := by
    cases b with
    | code a n mode =>
        refine exists_yields_tagged
          (faithful_word64.option.pair (faithful_word64.pair faithful_word64)) 0
          (fun x => Block.code x.1 x.2.1 x.2.2) (a, n, mode) ?_ hLength
        rfl
    | data a n =>
        refine exists_yields_tagged (faithful_word64.option.pair faithful_word64) 1
          (fun x => Block.data x.1 x.2) (a, n) ?_ hLength
        rfl
    | proxy =>
        obtain ⟨cost, hCost, hTag⟩ := faithful_word32.reads 2 hLength
        refine ⟨cost, hCost, hTag.followed ?_⟩
        exact Reader.yields_pure Block.proxy

/-- A referent comes back with its kind, which is the number in front. -/
theorem Referent.faithful_wire : Referent.wire.Faithful id where
  nonempty
    | .block _ | .address _ | .value _ =>
        fun h => faithful_word32.nonempty _ (List.append_eq_nil_iff.mp h).1
  reads r hLength := by
    cases r with
    | block id => exact exists_yields_tagged BlockId.faithful_wire 0 Referent.block id rfl hLength
    | address a => exact exists_yields_tagged faithful_word64 1 Referent.address a rfl hLength
    | value v => exact exists_yields_tagged faithful_int64 2 Referent.value v rfl hLength

theorem Symbol.faithful_wire : Symbol.wire.Faithful id :=
  (faithful_text.pair (Referent.faithful_wire.pair faithful_bool)).as fun _ => rfl

/-- Flags are written as their bits, with the bits that have no name. -/
theorem SectionFlags.faithful_wire : SectionFlags.wire.Faithful id :=
  faithful_word32.as fun _ => rfl

theorem Section.faithful_wire : Section.wire.Faithful id :=
  (faithful_text.pair (faithful_word64.pair
    (faithful_word64.pair SectionFlags.faithful_wire))).as fun _ => rfl

/-- A table is written with the name of its type and with its bytes as they are. -/
theorem AuxData.faithful_wire : AuxData.wire.Faithful id :=
  (faithful_text.pair faithful_bytes).as fun _ => rfl

/-- Tables are written under their names in order, and the order is found again when they are
read. -/
theorem AuxTables.faithful_wire : AuxTables.wire.Faithful id :=
  faithful_text.table AuxData.faithful_wire

/-- The sections come back under their ids, with the counter that says which ids were given out. -/
theorem AddressSpace.faithful_wire : AddressSpace.wire.Faithful id :=
  (faithful_word32.pair (faithful_word32.table Section.faithful_wire)).as fun _ => rfl

/-- The blocks and edges come back under their ids, with both counters and without the lists of
edges. -/
theorem BlockGraph.faithful_wire : BlockGraph.wire.Faithful BlockGraph.stored :=
  (GraphTag.faithful_wire.pair (faithful_word32.pair (faithful_word32.pair
    ((faithful_word32.table Block.faithful_wire).pair
      (faithful_word32.table Edge.faithful_wire))))).as fun _ => rfl

/-- The symbols come back under their ids, without the lists of names. -/
theorem SymbolTable.faithful_wire : SymbolTable.wire.Faithful SymbolTable.stored :=
  (faithful_word32.pair (faithful_word32.table Symbol.faithful_wire)).as fun _ => rfl

theorem Architecture.faithful_wire : (enumeration Architecture.all).Faithful id :=
  faithful_enumeration (fun a => by cases a <;> decide) (by decide)

theorem ByteOrder.faithful_wire : (enumeration ByteOrder.all).Faithful id :=
  faithful_enumeration (fun o => by cases o <;> decide) (by decide)

theorem FileFormat.faithful_wire : (enumeration FileFormat.all).Faithful id :=
  faithful_enumeration (fun f => by cases f <;> decide) (by decide)

/-- A module comes back as it is stored, by its fields in the order in which they are written. -/
theorem Module.faithful_wire : Module.wire.Faithful Module.stored :=
  (ModuleId.faithful_wire.pair (faithful_text.pair (faithful_text.pair
    (Architecture.faithful_wire.pair (ByteOrder.faithful_wire.pair
    (FileFormat.faithful_wire.pair (faithful_word64.pair (faithful_int64.pair
    (BlockId.faithful_wire.option.pair (AddressSpace.faithful_wire.pair
    (BlockGraph.faithful_wire.pair (SymbolTable.faithful_wire.pair
      AuxTables.faithful_wire)))))))))))).as fun _ => rfl

/-- A program comes back as it is stored, if all of it takes fewer than 2 ^ 64 bytes. Nothing is
asked of its rules. -/
theorem Program.faithful_wire : Program.wire.Faithful Program.stored :=
  (Module.faithful_wire.list.pair AuxTables.faithful_wire).as fun _ => rfl

end Disassembly
