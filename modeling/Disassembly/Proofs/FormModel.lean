import Disassembly.Json.Model
import Disassembly.Proofs.FlagText
import Disassembly.Proofs.FormRoundTrip
import Disassembly.Proofs.UuidText

/-! Every document form of the model is faithful, and like the binary ones these forms leave
out what is derived from other content. -/
namespace Disassembly

open Json Form

/-- An id is written as text, in the form with dashes that is always read back. -/
theorem Uuid.faithful_form : Uuid.form.Faithful id := faithful_text.restrict Uuid.ofText?_text

theorem ModuleId.faithful_form : ModuleId.form.Faithful id := Uuid.faithful_form.as fun _ => rfl

theorem GraphTag.faithful_form : GraphTag.form.Faithful id := Uuid.faithful_form.as fun _ => rfl

theorem BlockId.faithful_form : BlockId.form.Faithful id :=
  ((GraphTag.faithful_form.field.and faithful_word32.field).record (by decide)).as fun _ => rfl

/-- The kinds have different names, so each name gives back its kind. -/
theorem EdgeKind.faithful_form : (enumeration EdgeKind.all EdgeKind.name).Faithful id :=
  faithful_enumeration (fun k => by cases k <;> decide)
    fun k j => by cases k <;> cases j <;> decide

/-- The names of the fields are different. That is all there is to check of a record once its fields
are faithful. -/
theorem EdgeLabel.faithful_form : EdgeLabel.form.Faithful id :=
  ((EdgeKind.faithful_form.field.and (faithful_bool.field.and faithful_bool.field)).record
    (by decide)).as fun _ => rfl

theorem Edge.faithful_form : Edge.form.Faithful id :=
  ((BlockId.faithful_form.field.and (BlockId.faithful_form.field.and
    EdgeLabel.faithful_form.field)).record (by decide)).as fun _ => rfl

/-- A name without anything to escape is told from its content. -/
theorem alternative?_tagged {n : String} (h : escape n.toList = n.toList) (content : Json) :
    alternative? (tagged n content) = some (n.toList, some content) := by
  have hName : unescape? n.toList = some n.toList := by
    conv =>
      lhs
      rw [← h]
    exact unescape?_escape n.toList
  rw [tagged, alternative?, hName]
  rfl

/-- An alternative is written down as it is if its content is, since there is nothing to escape in
its name. -/
theorem spelled_tagged {n : String} (h : escape n.toList = n.toList) {content : Json}
    (hContent : Spelled content) : Spelled (tagged n content) := by
  apply Spelled.object
  · intro m hm
    rw [List.mem_singleton.mp hm, ← h]
    exact Token.quotable_escape n.toList
  · intro m hm
    rw [List.mem_singleton.mp hm]
    exact hContent

/-- A number is never written as nothing. -/
theorem write_word64_ne_null (n : UInt64) : word64.write n ≠ .null := nofun

/-- The address of a code block can be left open. It comes back as open, because no address is
written as `null`. -/
theorem Block.faithful_codeForm : Block.codeForm.Faithful id :=
  ((faithful_word64.option write_word64_ne_null).field.and
    (faithful_word64.field.and faithful_word64.field)).record (by decide)

/-- A data block is like a code block without a decode mode. -/
theorem Block.faithful_dataForm : Block.dataForm.Faithful id :=
  ((faithful_word64.option write_word64_ne_null).field.and faithful_word64.field).record
    (by decide)

/-- The content of an alternative is read as the form under its name reads it. -/
theorem Block.read_tagged (content : Json) :
    form.read (tagged "Code" content) =
      (codeForm.read content).map (fun x => Block.code x.1 x.2.1 x.2.2) ∧
    form.read (tagged "Data" content) =
      (dataForm.read content).map fun x => Block.data x.1 x.2 := by
  constructor
  · simp only [form, alternative?_tagged (n := "Code") rfl]
    change (codeForm.read content).bind _ = _
    cases codeForm.read content <;> rfl
  · simp only [form, alternative?_tagged (n := "Data") rfl]
    change (dataForm.read content).bind _ = _
    cases dataForm.read content <;> rfl

/-- The kind of a block is the name of its alternative, so by cases on the kind. A proxy is a name
without content. -/
theorem Block.faithful_form : Block.form.Faithful id where
  spelled
    | .code a n mode => spelled_tagged rfl (faithful_codeForm.spelled (a, n, mode))
    | .data a n => spelled_tagged rfl (faithful_dataForm.spelled (a, n))
    | .proxy => spelled_tagged rfl .null
  reads b := by
    cases b with
    | code a n mode =>
        refine (read_tagged (codeForm.write (a, n, mode))).1.trans ?_
        rw [faithful_codeForm.reads]
        rfl
    | data a n =>
        refine (read_tagged (dataForm.write (a, n))).2.trans ?_
        rw [faithful_dataForm.reads]
        rfl
    | proxy =>
        change form.read (tagged "Proxy" .null) = _
        simp only [form, alternative?_tagged (n := "Proxy") rfl]
        rfl

/-- The three alternatives of a referent are told apart by name, even where the content is a number
in each. -/
theorem Referent.read_tagged (content : Json) :
    form.read (tagged "Block" content) = (BlockId.form.read content).map .block ∧
    form.read (tagged "Address" content) = (word64.read content).map .address ∧
    form.read (tagged "Value" content) = (int64.read content).map .value := by
  refine ⟨?_, ?_, ?_⟩
  · simp only [form, alternative?_tagged (n := "Block") rfl]
    change (BlockId.form.read content).bind _ = _
    cases BlockId.form.read content <;> rfl
  · simp only [form, alternative?_tagged (n := "Address") rfl]
    change (word64.read content).bind _ = _
    cases word64.read content <;> rfl
  · simp only [form, alternative?_tagged (n := "Value") rfl]
    change (int64.read content).bind _ = _
    cases int64.read content <;> rfl

/-- A referent comes back with its kind. An address and a value of the same digits are different
documents. -/
theorem Referent.faithful_form : Referent.form.Faithful id where
  spelled
    | .block id => spelled_tagged rfl (BlockId.faithful_form.spelled id)
    | .address a => spelled_tagged rfl (faithful_word64.spelled a)
    | .value v => spelled_tagged rfl (faithful_int64.spelled v)
  reads r := by
    cases r with
    | block id =>
        refine (read_tagged (BlockId.form.write id)).1.trans ?_
        rw [BlockId.faithful_form.reads]
        rfl
    | address a =>
        refine (read_tagged (word64.write a)).2.1.trans ?_
        rw [faithful_word64.reads]
        rfl
    | value v =>
        refine (read_tagged (int64.write v)).2.2.trans ?_
        rw [faithful_int64.reads]
        rfl

theorem Symbol.faithful_form : Symbol.form.Faithful id :=
  ((faithful_text.field.and (Referent.faithful_form.field.and faithful_bool.field)).record
    (by decide)).as fun _ => rfl

/-- Flags are written as text. Bits without a name are in the text too, so they are not lost. -/
theorem SectionFlags.faithful_form : SectionFlags.form.Faithful id :=
  faithful_text.restrict SectionFlags.ofText?_text

theorem Section.faithful_form : Section.form.Faithful id :=
  ((faithful_text.field.and (faithful_word64.field.and (faithful_word64.field.and
    SectionFlags.faithful_form.field))).record (by decide)).as fun _ => rfl

/-- A table is written with its bytes as a list of numbers. -/
theorem AuxData.faithful_form : AuxData.form.Faithful id :=
  ((faithful_text.field.and faithful_byte.list.field).record (by decide)).as fun _ => by simp

/-- Tables are written under their names, whatever characters these have. -/
theorem AuxTables.faithful_form : AuxTables.form.Faithful id :=
  KeyForm.faithful_text.table AuxData.faithful_form

/-- The sections come back with their counter. There is nothing derived among them. -/
theorem AddressSpace.faithful_form : AddressSpace.form.Faithful id :=
  ((faithful_word32.field.and (KeyForm.faithful_index.table Section.faithful_form).field).record
    (by decide)).as fun _ => rfl

/-- The blocks and edges come back without the lists of edges, which are derived from them. -/
theorem BlockGraph.faithful_form : BlockGraph.form.Faithful BlockGraph.stored :=
  ((GraphTag.faithful_form.field.and (faithful_word32.field.and (faithful_word32.field.and
    ((KeyForm.faithful_index.table Block.faithful_form).field.and
    (KeyForm.faithful_index.table Edge.faithful_form).field)))).record (by decide)).as fun _ => rfl

/-- The symbols come back without the index of their names, which is derived from them. -/
theorem SymbolTable.faithful_form : SymbolTable.form.Faithful SymbolTable.stored :=
  ((faithful_word32.field.and (KeyForm.faithful_index.table Symbol.faithful_form).field).record
    (by decide)).as fun _ => rfl

theorem Architecture.faithful_form :
    (enumeration Architecture.all Architecture.name).Faithful id :=
  faithful_enumeration (fun a => by cases a <;> decide)
    fun a b => by cases a <;> cases b <;> decide

theorem ByteOrder.faithful_form : (enumeration ByteOrder.all ByteOrder.name).Faithful id :=
  faithful_enumeration (fun o => by cases o <;> decide)
    fun a b => by cases a <;> cases b <;> decide

theorem FileFormat.faithful_form : (enumeration FileFormat.all FileFormat.name).Faithful id :=
  faithful_enumeration (fun f => by cases f <;> decide)
    fun a b => by cases a <;> cases b <;> decide

theorem write_blockId_ne_null (id : BlockId) : BlockId.form.write id ≠ .null := nofun

/-- A module comes back as it is stored: the parts that keep something derived lose it, and all else
stays. -/
theorem Module.faithful_form : Module.form.Faithful Module.stored :=
  ((ModuleId.faithful_form.field.and (faithful_text.field.and (faithful_text.field.and
    (Architecture.faithful_form.field.and (ByteOrder.faithful_form.field.and
    (FileFormat.faithful_form.field.and (faithful_word64.field.and (faithful_int64.field.and
    ((BlockId.faithful_form.option write_blockId_ne_null).field.and
    (AddressSpace.faithful_form.field.and (BlockGraph.faithful_form.field.and
    (SymbolTable.faithful_form.field.and
    AuxTables.faithful_form.field)))))))))))).record (by decide)).as fun _ => rfl

/-- A program comes back as it is stored, whether it is well-formed or not. Nothing is checked
yet. -/
theorem Program.faithful_form : Program.form.Faithful Program.stored :=
  ((Module.faithful_form.list.field.and AuxTables.faithful_form.field).record
    (by decide)).as fun _ => rfl

end Disassembly
