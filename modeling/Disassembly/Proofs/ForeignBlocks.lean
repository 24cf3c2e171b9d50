import Disassembly.Directory
import Disassembly.Module.Query
import Disassembly.Proofs.ArchiveRoundTrip
import Disassembly.Proofs.Reachable

/-! Block ids of one module in the hands of another. The tags of modules are distinct in every
program, so at most one module resolves an id, although indices are the same everywhere and
copies of a file start with the same tags. Every change and every question that takes a block
compares the tag before the index, so all others refuse the id. -/
namespace Disassembly

namespace BlockGraph

variable {g : BlockGraph} {id source target : BlockId}

/-- A block under the tag of the graph is missing when there is none of its index. -/
theorem get?_eq_none_of_not_contains (hTag : id.graph = g.tag) (h : g.containsBlock id = false) :
    g.blocks.get? id.index = none := by
  rw [← block?_eq_none_iff, block?, owns, if_pos (decide_eq_true hTag)] at h
  exact h

/-- Why an edge cannot be drawn when one of its ends is missing. Tags are looked at first, and
then the ends in their order. -/
def missingEnd (g : BlockGraph) (source target : BlockId) : Error :=
  if source.graph ≠ g.tag ∨ target.graph ≠ g.tag then .crossModuleEdge source target
  else if g.containsBlock source then .unknownBlock target
  else .unknownBlock source

/-- No edge is drawn when an end is missing. Which error it is does not depend on the label. -/
theorem addEdge_eq_error (label : EdgeLabel)
    (h : g.containsBlock source = false ∨ g.containsBlock target = false) :
    addEdge source target label g = .error (g.missingEnd source target) g := by
  rw [addEdge, Edit.get_bind]
  by_cases hTags : source.graph ≠ g.tag ∨ target.graph ≠ g.tag
  · rw [missingEnd, if_pos hTags]
    apply Edit.refuseIf_bind_of_true
    simpa [owns] using hTags
  · rw [missingEnd, if_neg hTags]
    obtain ⟨hSource, hTarget⟩ : source.graph = g.tag ∧ target.graph = g.tag := by
      simpa [not_or] using hTags
    rw [Edit.refuseIf_bind_of_false (by simp [owns, hSource, hTarget])]
    cases hLive : g.containsBlock source with
    | false =>
        rw [if_neg Bool.false_ne_true]
        exact Edit.demand_none_bind (get?_eq_none_of_not_contains hSource hLive)
    | true =>
        obtain ⟨b, hb⟩ := containsBlock_iff.mp hLive
        have hGone : g.blocks.get? target.index = none :=
          get?_eq_none_of_not_contains hTarget (h.resolve_left (by simp [hLive]))
        rw [if_pos rfl, Edit.demand_some_bind (block?_eq_some_iff.mp hb).2]
        apply Edit.refuseIf_bind_of_true
        simp [Table.contains, hGone]

theorem setBlockAddress_eq_error (address : Option UInt64) (h : g.containsBlock id = false) :
    setBlockAddress id address g = .error (.unknownBlock id) g := by
  rw [setBlockAddress, Edit.get_bind]
  exact Edit.demand_none_bind (block?_eq_none_iff.mpr h)

end BlockGraph

/-- A symbol is not bound to a block that is missing. The error comes before the counter is looked
at. -/
theorem SymbolTable.bind_eq_error {g : BlockGraph} {t : SymbolTable} {s : Symbol} {id : BlockId}
    (hReferent : s.referent = .block id) (h : g.containsBlock id = false) :
    bind g s t = .error (.danglingReferent s.name id) t := by
  rw [bind]
  apply Edit.refuse_some_bind
  simp [dangling?, hReferent, h]

namespace Module

/-- Every change that takes the block fails for its sake and changes nothing, and every question
about its edges is answered with an error. -/
structure Refuses (m : Module) (b : BlockId) : Prop where
  addEdge : ∀ source target label, source = b ∨ target = b →
    m.addEdge source target label = .error (m.blocks.missingEnd source target) m
  addSymbol : ∀ name, m.addSymbol name (.block b) = .error (.danglingReferent name b) m
  addSymbolAtEnd : ∀ name, m.addSymbolAtEnd name b = .error (.danglingReferent name b) m
  setEntryPoint : m.setEntryPoint (some b) = .error (.unknownBlock b) m
  removeBlock : m.removeBlock b = .error (.unknownBlock b) m
  setBlockAddress : ∀ address, m.setBlockAddress b address = .error (.unknownBlock b) m
  outgoingEdges : ∀ kind, m.blocks.outgoingEdges b kind = .error (.unknownBlock b)
  incomingEdges : ∀ kind, m.blocks.incomingEdges b kind = .error (.unknownBlock b)
  callEdgesFrom : m.callEdgesFrom b = .error (.unknownBlock b)
  callTargetsFrom : m.callTargetsFrom b = .error (.unknownBlock b)

variable {m : Module} {b : BlockId}

theorem onBlocks_eq_error {α : Type} {edit : Edit BlockGraph α} {e : Error}
    (h : edit m.blocks = .error e m.blocks) : onBlocks edit m = .error e m :=
  Edit.within_of_error h

/-- In the same way in a module, where the blocks are those of the module. -/
theorem bindSymbol_eq_error {s : Symbol} (hReferent : s.referent = .block b)
    (h : m.blocks.containsBlock b = false) :
    (do let m ← get; onSymbols (SymbolTable.bind m.blocks s) : Edit Module SymbolId) m =
      .error (.danglingReferent s.name b) m := by
  rw [Edit.get_bind]
  exact Edit.within_of_error (SymbolTable.bind_eq_error hReferent h)

theorem outgoingEdges_eq_error (h : m.blocks.containsBlock b = false) (kind : Option EdgeKind) :
    m.blocks.outgoingEdges b kind = .error (.unknownBlock b) :=
  if_neg (by rw [h]; exact Bool.false_ne_true)

/-- It does not matter why the module does not have the block: whether the id is of another module,
of none at all, or of a block of this module that is gone. -/
theorem refuses_of_not_contains (h : m.blocks.containsBlock b = false) : m.Refuses b where
  addEdge source target label hEnd := by
    refine onBlocks_eq_error (BlockGraph.addEdge_eq_error label ?_)
    rcases hEnd with rfl | rfl
    · exact .inl h
    · exact .inr h
  addSymbol _ := bindSymbol_eq_error rfl h
  addSymbolAtEnd _ := bindSymbol_eq_error rfl h
  setEntryPoint := by
    rw [setEntryPoint, Edit.get_bind]
    apply Edit.refuse_some_bind
    rw [Option.bind_some, entryFault?, BlockGraph.block?_eq_none_iff.mpr h]
  removeBlock := by
    rw [removeBlock, Edit.get_bind]
    exact Edit.refuseIf_bind_of_true (by rw [h]; rfl)
  setBlockAddress address := onBlocks_eq_error (BlockGraph.setBlockAddress_eq_error address h)
  outgoingEdges := outgoingEdges_eq_error h
  incomingEdges _ := if_neg (by rw [h]; exact Bool.false_ne_true)
  callEdgesFrom := outgoingEdges_eq_error h _
  callTargetsFrom := by
    rw [callTargetsFrom, callEdgesFrom, outgoingEdges_eq_error h]
    rfl

end Module

namespace Directory

variable {options : ArchiveOptions} {d : Directory} {path : String}

/-- What has been read is compared to the limit and then decoded. -/
theorem load_eq_of_read {bytes : List UInt8} (h : d.read path = .ok bytes) :
    load options d path =
      if options.maxFileSize.toNat < bytes.length then
        .error (.fileTooLarge options.maxFileSize bytes.length)
      else Archive.decode options bytes := by
  rw [load, h]
  rfl

/-- A program that is loaded from a file has been decoded, so it is a reachable one. -/
theorem reachable_of_load {p : Program} (h : load options d path = .ok p) : p.Reachable := by
  cases hRead : d.read path with
  | error e =>
      rw [load, hRead] at h
      cases h
  | ok bytes =>
      rw [load_eq_of_read hRead] at h
      split at h
      · cases h
      · exact .archive h

end Directory

namespace Program

variable {p : Program} {i j : Nat} {m n : Module} {b : BlockId}

/-- An id that resolves carries the tag of its module, and no other module has that tag. -/
theorem Distinct.eq_of_containsBlock {modules : List Module} (h : Distinct modules)
    (hm : modules[i]? = some m) (hn : modules[j]? = some n)
    (hFirst : m.blocks.containsBlock b = true) (hSecond : n.blocks.containsBlock b = true) :
    i = j := by
  have hTags : m.graphTag = n.graphTag :=
    (BlockGraph.tag_of_containsBlock hFirst).symm.trans (BlockGraph.tag_of_containsBlock hSecond)
  obtain ⟨hBound, -⟩ := List.getElem?_eq_some_iff.mp hm
  refine (List.getElem?_inj (by rwa [List.length_map]) h.tags).mp ?_
  rw [List.getElem?_map, List.getElem?_map, hm, hn, Option.map_some, Option.map_some, hTags]

/-- A block of one module is refused by every other module of the program. -/
theorem Distinct.refuses {modules : List Module} (h : Distinct modules)
    (hm : modules[i]? = some m) (hn : modules[j]? = some n) (hApart : i ≠ j)
    (hResolves : m.blocks.containsBlock b = true) : n.Refuses b :=
  Module.refuses_of_not_contains (Bool.eq_false_iff.mpr fun hSecond =>
    hApart (h.eq_of_containsBlock hm hn hResolves hSecond))

/-- Copies of what one file holds, put together by merges in any order. -/
inductive MergedCopies (d : Directory) (path : String) : Program → Prop where
  | load {p : Program} {options : ArchiveOptions} (hLoad : Directory.load options d path = .ok p) :
      MergedCopies d path p
  | merge {p other : Program} (prior : MergedCopies d path p) (source : MergedCopies d path other)
      (policy : CollisionPolicy) (draws : Draws) :
      MergedCopies d path ((Program.merge other policy draws).after p)

/-- However often the copies are merged, and with whatever policies and draws, the program is a
reachable one. -/
theorem MergedCopies.reachable {d : Directory} {path : String} (h : MergedCopies d path p) :
    p.Reachable := by
  induction h with
  | load hLoad => exact Directory.reachable_of_load hLoad
  | merge _ _ policy draws ihPrior ihSource => exact ihPrior.merge ihSource policy draws

/-- Block ids never leak from one module into another. At most one module of a program resolves an
id, and each module that does not resolve it refuses it. So it is in particular when all modules
are copies of those of one file. -/
theorem block_ids_stay_apart :
    (∀ {p : Program}, p.Reachable → ∀ (b : BlockId),
      (∀ {i j : Nat} {m n : Module}, p.modules[i]? = some m → p.modules[j]? = some n →
        m.blocks.containsBlock b = true → n.blocks.containsBlock b = true → i = j) ∧
      ∀ m ∈ p.modules, m.blocks.containsBlock b = false → m.Refuses b) ∧
    ∀ {d : Directory} {path : String} {p : Program}, MergedCopies d path p →
      ∀ {i j : Nat} {m n : Module} {b : BlockId}, p.modules[i]? = some m → p.modules[j]? = some n →
        i ≠ j → m.blocks.containsBlock b = true → n.Refuses b := by
  refine ⟨fun h b => ⟨fun hm hn hFirst hSecond => ?_, fun m _ hGone => ?_⟩,
    fun h i j m n b hm hn hApart hResolves => ?_⟩
  · exact h.distinct.eq_of_containsBlock hm hn hFirst hSecond
  · exact Module.refuses_of_not_contains hGone
  · exact h.reachable.distinct.refuses hm hn hApart hResolves

def singleRecursion : Program :=
  (addModule (.recursion ⟨.ofLeading [1]⟩ ⟨.ofLeading [2]⟩)).after {}

theorem reachable_singleRecursion : singleRecursion.Reachable :=
  .addModule .empty (Module.reachable_recursion _ _)

/-- A directory with the archive of that program in it. -/
def recursionFile : Directory :=
  (∅ : Directory).insert ["recursion.ir"] (.file (Archive.encode singleRecursion))

/-- The file can be loaded, so there are such copies. -/
theorem load_recursionFile :
    Directory.load {} recursionFile "recursion.ir" = .ok singleRecursion.stored.relink := by
  have hPath : recursionFile.locate "recursion.ir" = some ["recursion.ir"] := by decide
  have hRead : recursionFile.read "recursion.ir" = .ok (Archive.encode singleRecursion) := by
    rw [Directory.read, hPath]
    rfl
  have hPayload : (Archive.payload singleRecursion).length ≤ 1000 := by decide +kernel
  have hSize : ¬(1073741824 : UInt64).toNat < (Archive.encode singleRecursion).length := by
    rw [Archive.length_encode]
    exact Nat.not_lt.mpr (Nat.le_trans (Nat.add_le_add_left hPayload _) (by decide))
  have hDecode := Archive.decode_encode {} (Nat.le_trans hPayload (by decide))
  rw [Archive.accept_stored reachable_singleRecursion.sound.wellFormed] at hDecode
  rw [Directory.load_eq_of_read hRead, if_neg hSize, hDecode]

/-- The file is loaded twice and merged. Both modules have a block of index 0, but not the same
one. -/
theorem block_ids_stay_apart_recursionFile :
    let copy := singleRecursion.stored.relink
    let p := (merge copy .regenerate ⟨[⟨.ofLeading [3]⟩], [⟨.ofLeading [4]⟩]⟩).after copy
    let b : BlockId := ⟨⟨.ofLeading [2]⟩, 0⟩
    MergedCopies recursionFile "recursion.ir" p ∧ p.Reachable ∧
      ∃ m n, p.modules = [m, n] ∧ m.blocks.containsBlock b = true ∧
        m.blocks.blockList.map (·.1.index) = n.blocks.blockList.map (·.1.index) ∧ n.Refuses b ∧
        n.blocks.containsBlock b = false := by
  intro copy p b
  have hCopy : MergedCopies recursionFile "recursion.ir" copy := .load load_recursionFile
  have hMerged : MergedCopies recursionFile "recursion.ir" p := hCopy.merge hCopy _ _
  obtain ⟨hReachable, hCopies⟩ := block_ids_stay_apart
  obtain ⟨hUnique, -⟩ := hReachable hMerged.reachable b
  have hModules : ∃ m n, p.modules = [m, n] ∧ m.blocks.containsBlock b = true ∧
      m.blocks.blockList.map (·.1.index) = n.blocks.blockList.map (·.1.index) :=
    ⟨_, _, rfl, rfl, rfl⟩
  obtain ⟨m, n, hBoth, hResolves, hIndices⟩ := hModules
  have hFirst : p.modules[0]? = some m := by rw [hBoth]; rfl
  have hSecond : p.modules[1]? = some n := by rw [hBoth]; rfl
  refine ⟨hMerged, hMerged.reachable, m, n, hBoth, hResolves, hIndices,
    hCopies hMerged hFirst hSecond Nat.zero_ne_one hResolves, ?_⟩
  exact Bool.eq_false_iff.mpr fun h =>
    Nat.zero_ne_one (hUnique hFirst hSecond hResolves h)

end Program

end Disassembly
