import Disassembly.Program
import Disassembly.Wire

/-! The binary form of a program and of everything in it. Fields stand in a fixed order
without names, and what is derived from other content is left out. -/
namespace Disassembly

def Uuid.wire : Wire Uuid := Wire.bytes.restrict Uuid.ofBytes? Uuid.bytes

def ModuleId.wire : Wire ModuleId := Uuid.wire.as ModuleId.mk ModuleId.uuid

def GraphTag.wire : Wire GraphTag := Uuid.wire.as GraphTag.mk GraphTag.uuid

def BlockId.wire : Wire BlockId :=
  (GraphTag.wire.pair .word32).as (fun (graph, index) => ⟨graph, index⟩)
    fun id => (id.graph, id.index)

def EdgeLabel.wire : Wire EdgeLabel :=
  ((Wire.enumeration EdgeKind.all).pair (Wire.bool.pair .bool)).as
    (fun (kind, conditional, direct) => ⟨kind, conditional, direct⟩)
    fun l => (l.kind, l.conditional, l.direct)

def Edge.wire : Wire Edge :=
  (BlockId.wire.pair (BlockId.wire.pair EdgeLabel.wire)).as
    (fun (source, target, label) => ⟨source, target, label⟩)
    fun e => (e.source, e.target, e.label)

/-- A block follows the number of its kind. A proxy block is nothing more than that. -/
def Block.wire : Wire Block where
  write
    | .code a n mode =>
      Wire.word32.write 0 ++ (Wire.word64.option.pair (Wire.word64.pair .word64)).write (a, n, mode)
    | .data a n => Wire.word32.write 1 ++ (Wire.word64.option.pair .word64).write (a, n)
    | .proxy => Wire.word32.write 2
  read := do
    match ← Wire.word32.read with
    | 0 =>
      let (a, n, mode) ← (Wire.word64.option.pair (Wire.word64.pair .word64)).read
      return .code a n mode
    | 1 =>
      let (a, n) ← (Wire.word64.option.pair .word64).read
      return .data a n
    | 2 => return .proxy
    | _ => failure

def Referent.wire : Wire Referent where
  write
    | .block id => Wire.word32.write 0 ++ BlockId.wire.write id
    | .address a => Wire.word32.write 1 ++ Wire.word64.write a
    | .value v => Wire.word32.write 2 ++ Wire.int64.write v
  read := do
    match ← Wire.word32.read with
    | 0 => return .block (← BlockId.wire.read)
    | 1 => return .address (← Wire.word64.read)
    | 2 => return .value (← Wire.int64.read)
    | _ => failure

def Symbol.wire : Wire Symbol :=
  (Wire.text.pair (Referent.wire.pair .bool)).as
    (fun (name, referent, atEnd) => ⟨name, referent, atEnd⟩)
    fun s => (s.name, s.referent, s.atEnd)

def SectionFlags.wire : Wire SectionFlags := Wire.word32.as SectionFlags.mk SectionFlags.bits

def Section.wire : Wire Section :=
  (Wire.text.pair (Wire.word64.pair (Wire.word64.pair SectionFlags.wire))).as
    (fun (name, start, size, flags) => ⟨name, start, size, flags⟩)
    fun s => (s.name, s.start, s.size, s.flags)

def AuxData.wire : Wire AuxData :=
  (Wire.text.pair .bytes).as (fun (typeName, data) => ⟨typeName, data⟩)
    fun t => (t.typeName, t.data)

def AuxTables.wire : Wire AuxTables := Wire.table .text AuxData.wire

def AddressSpace.wire : Wire AddressSpace :=
  (Wire.word32.pair (.table .word32 Section.wire)).as
    (fun (nextSection, sections) => ⟨nextSection, sections⟩)
    fun s => (s.nextSection, s.sections)

def BlockGraph.wire : Wire BlockGraph :=
  (GraphTag.wire.pair (Wire.word32.pair (Wire.word32.pair
    ((Wire.table .word32 Block.wire).pair (.table .word32 Edge.wire))))).as
    (fun (tag, nextBlock, nextEdge, blocks, edges) =>
      { tag, nextBlock, nextEdge, blocks, edges })
    fun g => (g.tag, g.nextBlock, g.nextEdge, g.blocks, g.edges)

def SymbolTable.wire : Wire SymbolTable :=
  (Wire.word32.pair (.table .word32 Symbol.wire)).as
    (fun (nextSymbol, symbols) => { nextSymbol, symbols })
    fun t => (t.nextSymbol, t.symbols)

def Module.wire : Wire Module :=
  (ModuleId.wire.pair (Wire.text.pair (Wire.text.pair
    ((Wire.enumeration Architecture.all).pair ((Wire.enumeration ByteOrder.all).pair
    ((Wire.enumeration FileFormat.all).pair (Wire.word64.pair (Wire.int64.pair
    (BlockId.wire.option.pair (AddressSpace.wire.pair (BlockGraph.wire.pair
    (SymbolTable.wire.pair AuxTables.wire)))))))))))).as
    (fun (id, name, binaryPath, architecture, byteOrder, fileFormat, preferredAddress,
        rebaseDelta, entryPoint, sections, blocks, symbols, auxData) =>
      { id, name, binaryPath, architecture, byteOrder, fileFormat, preferredAddress,
        rebaseDelta, entryPoint, sections, blocks, symbols, auxData })
    fun m => (m.id, m.name, m.binaryPath, m.architecture, m.byteOrder, m.fileFormat,
      m.preferredAddress, m.rebaseDelta, m.entryPoint, m.sections, m.blocks, m.symbols, m.auxData)

def Program.wire : Wire Program :=
  (Module.wire.list.pair AuxTables.wire).as (fun (modules, auxData) => ⟨modules, auxData⟩)
    fun p => (p.modules, p.auxData)

end Disassembly
