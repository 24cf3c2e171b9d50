import Disassembly.AddressSpace
import Disassembly.Archive
import Disassembly.AuxData
import Disassembly.Block
import Disassembly.BlockGraph
import Disassembly.BlockGraph.Adjacency
import Disassembly.BlockGraph.EdgeWalk
import Disassembly.Consistency
import Disassembly.Digest.Blake3
import Disassembly.Digest.Sha256
import Disassembly.Digest.Words
import Disassembly.Directory
import Disassembly.Document
import Disassembly.Edge
import Disassembly.Edit
import Disassembly.Error
import Disassembly.Id
import Disassembly.Json
import Disassembly.Json.Form
import Disassembly.Json.Layout
import Disassembly.Json.Model
import Disassembly.Json.Token
import Disassembly.Json.Tree
import Disassembly.Module
import Disassembly.Module.Query
import Disassembly.Program
import Disassembly.Program.Merge
import Disassembly.Proofs.AddressLookup
import Disassembly.Proofs.AllocationLimit
import Disassembly.Proofs.ArchiveContent
import Disassembly.Proofs.ArchiveRoundTrip
import Disassembly.Proofs.Atomicity
import Disassembly.Proofs.BlockRemoval
import Disassembly.Proofs.Chronicle
import Disassembly.Proofs.ConsistencyCheck
import Disassembly.Proofs.DigestLength
import Disassembly.Proofs.DocumentRoundTrip
import Disassembly.Proofs.DrawSupply
import Disassembly.Proofs.EdgeCount
import Disassembly.Proofs.EdgeWalks
import Disassembly.Proofs.Effects
import Disassembly.Proofs.EndSymbols
import Disassembly.Proofs.Enumeration
import Disassembly.Proofs.Escapes
import Disassembly.Proofs.Extent
import Disassembly.Proofs.FileStore
import Disassembly.Proofs.FlagText
import Disassembly.Proofs.ForeignBlocks
import Disassembly.Proofs.FormModel
import Disassembly.Proofs.FormRoundTrip
import Disassembly.Proofs.Frame
import Disassembly.Proofs.GraphEdits
import Disassembly.Proofs.GraphSound
import Disassembly.Proofs.IdHistory
import Disassembly.Proofs.InsertionOrder
import Disassembly.Proofs.ItemEdits
import Disassembly.Proofs.ItemIds
import Disassembly.Proofs.Linked
import Disassembly.Proofs.ListedAnswers
import Disassembly.Proofs.Listing
import Disassembly.Proofs.Loading
import Disassembly.Proofs.Locality
import Disassembly.Proofs.MergeAdditions
import Disassembly.Proofs.MergeIdentity
import Disassembly.Proofs.MergeMonoid
import Disassembly.Proofs.MergeRenaming
import Disassembly.Proofs.Metering
import Disassembly.Proofs.ModuleEdits
import Disassembly.Proofs.ModuleSound
import Disassembly.Proofs.NameLookup
import Disassembly.Proofs.Normalisation
import Disassembly.Proofs.Numerals
import Disassembly.Proofs.Parsing
import Disassembly.Proofs.PrefixFree
import Disassembly.Proofs.ProgramEdits
import Disassembly.Proofs.ProgramOperations
import Disassembly.Proofs.Provenance
import Disassembly.Proofs.RawModules
import Disassembly.Proofs.Reachable
import Disassembly.Proofs.Reading
import Disassembly.Proofs.Regeneration
import Disassembly.Proofs.Renaming
import Disassembly.Proofs.SameAnswers
import Disassembly.Proofs.Scanning
import Disassembly.Proofs.StrandedEdges
import Disassembly.Proofs.StructuralQueries
import Disassembly.Proofs.SymbolEdits
import Disassembly.Proofs.TableOrder
import Disassembly.Proofs.Undo
import Disassembly.Proofs.UuidText
import Disassembly.Proofs.VersionGates
import Disassembly.Proofs.WellFormed
import Disassembly.Proofs.WireModel
import Disassembly.Proofs.WireRoundTrip
import Disassembly.Section
import Disassembly.SectionFlags
import Disassembly.Settings
import Disassembly.Symbol
import Disassembly.SymbolTable
import Disassembly.Table
import Disassembly.Table.Lemmas
import Disassembly.Target
import Disassembly.Text.Blank
import Disassembly.Text.Hex
import Disassembly.Text.Split
import Disassembly.Uuid
import Disassembly.Violation
import Disassembly.Wire
import Disassembly.Wire.Model
import Disassembly.Wire.Reader
import Disassembly.Wire.Varint
