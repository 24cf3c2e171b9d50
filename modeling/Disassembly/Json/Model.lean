import Disassembly.Json.Form
import Disassembly.Program

/-! The JSON form of a program and of everything in it. What is derived from other content is
left out. -/
namespace Disassembly

open Json

def Uuid.form : Form Uuid := Form.text.restrict Uuid.ofText? Uuid.text

def ModuleId.form : Form ModuleId := Uuid.form.as ModuleId.mk ModuleId.uuid

def GraphTag.form : Form GraphTag := Uuid.form.as GraphTag.mk GraphTag.uuid

def BlockId.form : Form BlockId :=
  (Form.record ((Record.field "graph" GraphTag.form).and (.field "index" .word32))).as
    (fun (graph, index) => ⟨graph, index⟩) fun id => (id.graph, id.index)

def EdgeLabel.form : Form EdgeLabel :=
  (Form.record ((Record.field "kind" (.enumeration EdgeKind.all EdgeKind.name)).and
    ((Record.field "conditional" .bool).and (.field "direct" .bool)))).as
    (fun (kind, conditional, direct) => ⟨kind, conditional, direct⟩)
    fun l => (l.kind, l.conditional, l.direct)

def Edge.form : Form Edge :=
  (Form.record ((Record.field "source" BlockId.form).and
    ((Record.field "target" BlockId.form).and (.field "label" EdgeLabel.form)))).as
    (fun (source, target, label) => ⟨source, target, label⟩)
    fun e => (e.source, e.target, e.label)

/-- The name of an alternative before its content. -/
def Json.tagged (name : String) (content : Json) : Json := .object [(name.toList, content)]

def Block.codeForm : Form (Option UInt64 × UInt64 × UInt64) :=
  .record ((Record.optionalField "address" .word64).and
    ((Record.field "size" .word64).and (.field "decode_mode" .word64)))

def Block.dataForm : Form (Option UInt64 × UInt64) :=
  .record ((Record.optionalField "address" .word64).and (.field "size" .word64))

def Block.form : Form Block where
  write
    | .code a n mode => tagged "Code" (codeForm.write (a, n, mode))
    | .data a n => tagged "Data" (dataForm.write (a, n))
    | .proxy => tagged "Proxy" .null
  read v := do
    match ← alternative? v with
    | (name, some content) =>
      if name = "Code".toList then
        let (a, n, mode) ← codeForm.read content
        return .code a n mode
      else if name = "Data".toList then
        let (a, n) ← dataForm.read content
        return .data a n
      else if name = "Proxy".toList then
        match content with
        | .null => return .proxy
        | _ => none
      else none
    | (_, none) => none

def Referent.form : Form Referent where
  write
    | .block id => tagged "Block" (BlockId.form.write id)
    | .address a => tagged "Address" (Form.word64.write a)
    | .value v => tagged "Value" (Form.int64.write v)
  read v := do
    match ← alternative? v with
    | (name, some content) =>
      if name = "Block".toList then return .block (← BlockId.form.read content)
      else if name = "Address".toList then return .address (← Form.word64.read content)
      else if name = "Value".toList then return .value (← Form.int64.read content)
      else none
    | (_, none) => none

def Symbol.form : Form Symbol :=
  (Form.record ((Record.field "name" .text).and
    ((Record.field "referent" Referent.form).and (.field "at_end" .bool)))).as
    (fun (name, referent, atEnd) => ⟨name, referent, atEnd⟩)
    fun s => (s.name, s.referent, s.atEnd)

def SectionFlags.form : Form SectionFlags := Form.text.restrict SectionFlags.ofText? SectionFlags.text

def Section.form : Form Section :=
  (Form.record ((Record.field "name" .text).and ((Record.field "start" .word64).and
    ((Record.field "size" .word64).and (.field "flags" SectionFlags.form))))).as
    (fun (name, start, size, flags) => ⟨name, start, size, flags⟩)
    fun s => (s.name, s.start, s.size, s.flags)

def AuxData.form : Form AuxData :=
  (Form.record ((Record.field "type_name" .text).and (.field "data" (.list .byte)))).as
    (fun (typeName, data) => ⟨typeName, data⟩) fun t => (t.typeName, t.data)

def AuxTables.form : Form AuxTables := .table .text AuxData.form

def AddressSpace.form : Form AddressSpace :=
  (Form.record ((Record.field "next_section" .word32).and
    (.field "sections" (.table .index Section.form)))).as
    (fun (nextSection, sections) => ⟨nextSection, sections⟩)
    fun s => (s.nextSection, s.sections)

def BlockGraph.form : Form BlockGraph :=
  (Form.record ((Record.field "tag" GraphTag.form).and ((Record.field "next_block" .word32).and
    ((Record.field "next_edge" .word32).and
    ((Record.field "blocks" (.table .index Block.form)).and
    (.field "edges" (.table .index Edge.form))))))).as
    (fun (tag, nextBlock, nextEdge, blocks, edges) =>
      { tag, nextBlock, nextEdge, blocks, edges })
    fun g => (g.tag, g.nextBlock, g.nextEdge, g.blocks, g.edges)

def SymbolTable.form : Form SymbolTable :=
  (Form.record ((Record.field "next_symbol" .word32).and
    (.field "symbols" (.table .index Symbol.form)))).as
    (fun (nextSymbol, symbols) => { nextSymbol, symbols })
    fun t => (t.nextSymbol, t.symbols)

def Module.form : Form Module :=
  (Form.record ((Record.field "id" ModuleId.form).and ((Record.field "name" .text).and
    ((Record.field "binary_path" .text).and
    ((Record.field "isa" (.enumeration Architecture.all Architecture.name)).and
    ((Record.field "byte_order" (.enumeration ByteOrder.all ByteOrder.name)).and
    ((Record.field "file_format" (.enumeration FileFormat.all FileFormat.name)).and
    ((Record.field "preferred_address" .word64).and ((Record.field "rebase_delta" .int64).and
    ((Record.optionalField "entry_point" BlockId.form).and
    ((Record.field "sections" AddressSpace.form).and
    ((Record.field "blocks" BlockGraph.form).and
    ((Record.field "symbols" SymbolTable.form).and
    (.field "aux_data" AuxTables.form)))))))))))))).as
    (fun (id, name, binaryPath, architecture, byteOrder, fileFormat, preferredAddress,
        rebaseDelta, entryPoint, sections, blocks, symbols, auxData) =>
      { id, name, binaryPath, architecture, byteOrder, fileFormat, preferredAddress,
        rebaseDelta, entryPoint, sections, blocks, symbols, auxData })
    fun m => (m.id, m.name, m.binaryPath, m.architecture, m.byteOrder, m.fileFormat,
      m.preferredAddress, m.rebaseDelta, m.entryPoint, m.sections, m.blocks, m.symbols, m.auxData)

def Program.form : Form Program :=
  (Form.record ((Record.field "modules" Module.form.list).and
    (.field "aux_data" AuxTables.form))).as
    (fun (modules, auxData) => ⟨modules, auxData⟩) fun p => (p.modules, p.auxData)

end Disassembly
