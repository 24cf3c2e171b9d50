import Disassembly.Proofs.NameLookup

/-! The questions that join the blocks, symbols and sections of a module. What a stored thing
refers to is there, so a question fails only if the thing that it is about is missing, and what it
answers can be said of the stores alone. -/
namespace Disassembly

section Traversal

variable {α β ε : Type} {f : α → Except ε β} {l : List α}

/-- A traversal that succeeds has found one value after the other. -/
theorem mapM_eq_ok_iff {l' : List β} :
    l.mapM f = .ok l' ↔ List.Forall₂ (fun a b => f a = .ok b) l l' := by
  induction l generalizing l' with
  | nil =>
      rw [List.mapM_nil, List.forall₂_nil_left_iff]
      exact ⟨fun h => (Except.ok.inj h).symm, fun h => congrArg Except.ok h.symm⟩
  | cons a rest ih =>
      rw [List.mapM_cons, List.forall₂_cons_left_iff]
      cases hFirst : f a with
      | error e => simp [bind, Except.bind]
      | ok b =>
          cases hRest : rest.mapM f with
          | error e => simp [bind, Except.bind, ← ih, hRest]
          | ok bs => simp [bind, Except.bind, pure, Except.pure, ← ih, hRest, eq_comm]

/-- A traversal succeeds if every step does. -/
theorem exists_mapM_eq_ok (h : ∀ a ∈ l, ∃ b, f a = .ok b) : ∃ l', l.mapM f = .ok l' := by
  simp only [mapM_eq_ok_iff]
  induction l with
  | nil => exact ⟨[], .nil⟩
  | cons a rest ih =>
      obtain ⟨⟨b, hFirst⟩, hLater⟩ := List.forall_mem_cons.mp h
      obtain ⟨bs, hRest⟩ := ih hLater
      exact ⟨b :: bs, .cons hFirst hRest⟩

end Traversal

section Answered

variable {α β : Type} {answer : Except Error α} {missing : Error} {thing : Option β}
  {right : β → α → Prop}

/-- A question about one thing. It fails if the thing is missing, for no other reason and always
with the same error, and else it has the one right answer. -/
structure Answered (answer : Except Error α) (missing : Error) (thing : Option β)
    (right : β → α → Prop) : Prop where
  error : ∀ e, answer = .error e ↔ e = missing ∧ thing = none
  ok : ∀ a, answer = .ok a ↔ ∃ b, thing = some b ∧ right b a

/-- It is enough to give the one right answer for each thing. -/
theorem Answered.intro (hMissing : thing = none → answer = .error missing)
    (hFound : ∀ b, thing = some b → ∃ a, answer = .ok a ∧ ∀ a', right b a' ↔ a' = a) :
    Answered answer missing thing right := by
  cases thing with
  | none =>
      have hError := hMissing rfl
      exact ⟨fun e => by simp [hError, eq_comm], fun a => by simp [hError]⟩
  | some b =>
      obtain ⟨a, hOk, hRight⟩ := hFound b rfl
      exact ⟨fun e => by simp [hOk], fun a' => by simp [hOk, hRight, eq_comm]⟩

end Answered

/-- A section holds the addresses from its start up to its end, without the end. -/
theorem Section.contains_iff {x : Section} {a : UInt64} :
    x.contains a = true ↔
      x.start.toNat ≤ a.toNat ∧ a.toNat < x.start.toNat + x.size.toNat := by
  rw [contains, Bool.and_eq_true, decide_eq_true_eq, decide_eq_true_eq, UInt64.le_iff_toNat_le]
  refine and_congr_right fun hStart => ?_
  rw [UInt64.lt_iff_toNat_lt, UInt64.toNat_sub_of_le _ _ (UInt64.le_iff_toNat_le.mpr hStart)]
  omega

/-- The address of the block lies among those of the section. -/
def Block.IsIn (b : Block) (x : Section) : Prop :=
  ∃ a, b.address = some a ∧ x.start.toNat ≤ a.toNat ∧ a.toNat < x.start.toNat + x.size.toNat

/-- A proxy block has no place of its own. -/
theorem Block.address_of_isProxy {b : Block} (h : b.isProxy = true) : b.address = none := by
  cases b with
  | code | data => cases h
  | proxy => rfl

namespace Module

variable {m start now : Module} {given taken : List ItemId}

/-- What a referent is in a module. A block has to be live, and its kind now is what counts. -/
inductive Denotes (m : Module) : Referent → ReferentKind → Prop where
  | block {id : BlockId} {b : Block} (hLive : m.blocks.block? id = some b) :
      Denotes m (.block id) (.ofBlock b.kind)
  | address (a : UInt64) : Denotes m (.address a) .absoluteAddress
  | value (v : Int64) : Denotes m (.value v) .absoluteValue

/-- A referent is of one kind at a time. -/
theorem Denotes.unique {r : Referent} {kind kind' : ReferentKind} (h : m.Denotes r kind)
    (h' : m.Denotes r kind') : kind = kind' := by
  cases h with
  | block hLive =>
      cases h' with
      | block hLive' => cases hLive.symm.trans hLive'; rfl
  | address | value => cases h'; rfl

theorem Denotes.iff_eq {r : Referent} {kind kind' : ReferentKind} (h : m.Denotes r kind) :
    m.Denotes r kind' ↔ kind' = kind :=
  ⟨fun h' => h'.unique h, fun hSame => hSame ▸ h⟩

/-- A stored symbol never dangles. -/
theorem Sound.referentKind_eq_ok (h : m.Sound) {id : SymbolId} {s : Symbol}
    (hSymbol : m.symbols.symbol? id = some s) :
    ∃ kind, m.referentKind id = .ok kind ∧ m.Denotes s.referent kind := by
  obtain ⟨name, referent, atEnd⟩ := s
  cases referent with
  | address a => exact ⟨_, by rw [referentKind, SymbolTable.referentKind, hSymbol], .address a⟩
  | value v => exact ⟨_, by rw [referentKind, SymbolTable.referentKind, hSymbol], .value v⟩
  | block b =>
      obtain ⟨x, hLive⟩ := h.wellFormed.symbols.referent id.index _ b hSymbol rfl
      refine ⟨.ofBlock x.kind, ?_, .block hLive⟩
      simp only [referentKind, SymbolTable.referentKind, hSymbol, hLive]

/-- The kind of a referent is told for every stored symbol. The only error is that there is no such
symbol. -/
theorem answered_referentKind (h : m.Sound) (id : SymbolId) :
    Answered (m.referentKind id) (.unknownSymbol id) (m.symbols.symbol? id) fun s kind =>
      m.Denotes s.referent kind := by
  refine .intro (fun hGone => ?_) fun s hSymbol => ?_
  · rw [referentKind, SymbolTable.referentKind, hGone]
  · obtain ⟨kind, hKind, hDenotes⟩ := h.referentKind_eq_ok hSymbol
    exact ⟨kind, hKind, fun _ => hDenotes.iff_eq⟩

/-- Whether a symbol refers to a proxy block is told for every stored symbol. -/
theorem answered_isProxyReferent (h : m.Sound) (id : SymbolId) :
    Answered (m.isProxyReferent id) (.unknownSymbol id) (m.symbols.symbol? id) fun s proxy =>
      (proxy = true ↔ m.Denotes s.referent .proxyBlock) := by
  refine .intro (fun hGone => ?_) fun s hSymbol => ?_
  · rw [isProxyReferent, referentKind, SymbolTable.referentKind, hGone]
    rfl
  · obtain ⟨kind, hKind, hDenotes⟩ := h.referentKind_eq_ok hSymbol
    refine ⟨decide (kind = .proxyBlock), by rw [isProxyReferent, hKind]; rfl, fun proxy => ?_⟩
    rw [hDenotes.iff_eq, eq_comm (a := ReferentKind.proxyBlock)]
    exact ⟨fun h => Bool.eq_iff_iff.mpr (h.trans decide_eq_true_iff.symm),
      fun h => h ▸ decide_eq_true_iff⟩

/-- The search through the symbols of a name ends at the first one that is no code block. -/
theorem Sound.every_eq_ok (h : m.Sound) {hits : List (SymbolId × Symbol)}
    (hHits : ∀ x ∈ hits, m.symbols.symbol? x.1 = some x.2) :
    ∃ code, symbolResolvesToCode.every m hits = .ok code ∧
      (code = true ↔ ∀ x ∈ hits, m.Denotes x.2.referent .codeBlock) := by
  induction hits with
  | nil => exact ⟨true, rfl, by simp⟩
  | cons head rest ih =>
      obtain ⟨hHead, hRest⟩ := List.forall_mem_cons.mp hHits
      obtain ⟨kind, hKind, hDenotes⟩ := h.referentKind_eq_ok hHead
      rw [symbolResolvesToCode.every, hKind]
      by_cases hCode : kind = .codeBlock
      · subst hCode
        obtain ⟨code, hEvery, hAll⟩ := ih hRest
        exact ⟨code, hEvery, by rw [hAll, List.forall_mem_cons, and_iff_right hDenotes]⟩
      · refine ⟨false, if_neg hCode, ?_⟩
        simp only [Bool.false_eq_true, List.forall_mem_cons, false_iff]
        exact fun hAll => hCode (hDenotes.unique hAll.1)

/-- A name that no symbol has resolves to nothing. -/
theorem Sound.symbolResolvesToCode_eq_ok (h : m.Sound) (name : String) :
    ∃ code, m.symbolResolvesToCode name = .ok code ∧
      (code = true ↔ (∃ id s, m.symbols.symbol? id = some s ∧ s.name = name) ∧
        ∀ id s, m.symbols.symbol? id = some s → s.name = name →
          m.Denotes s.referent .codeBlock) := by
  have hFound := h.enumerates_find name
  rw [symbolResolvesToCode]
  cases hHits : m.symbols.find name with
  | nil =>
      have hNone := hFound.eq_nil_iff.mp hHits
      refine ⟨false, rfl, ?_⟩
      simp only [Bool.false_eq_true, false_iff]
      rintro ⟨⟨id, s, hSymbol, hName⟩, -⟩
      exact hNone id s hSymbol hName
  | cons head rest =>
      rw [← hHits]
      obtain ⟨code, hEvery, hAll⟩ :=
        h.every_eq_ok fun x hx => ((hFound.mem x.1 x.2).mp hx).1
      refine ⟨code, by rw [← hEvery, hHits], hAll.trans ⟨fun hCode => ⟨?_, ?_⟩, ?_⟩⟩
      · have hHead : head ∈ m.symbols.find name := by
          rw [hHits]
          exact List.mem_cons_self ..
        exact ⟨head.1, head.2, (hFound.mem head.1 head.2).mp hHead⟩
      · intro id s hSymbol hName
        exact hCode (id, s) ((hFound.mem id s).mpr ⟨hSymbol, hName⟩)
      · rintro ⟨-, hCode⟩ x hx
        obtain ⟨hSymbol, hName⟩ := (hFound.mem x.1 x.2).mp hx
        exact hCode x.1 x.2 hSymbol hName

/-- What is looked up for one call. -/
def calledBy (m : Module) (call : EdgeId × Edge) : Except Error (BlockId × Block) :=
  match m.blocks.block? call.2.target with
  | some b => .ok (call.2.target, b)
  | none => .error (.unknownBlock call.2.target)

theorem calledBy_eq_ok_iff {call : EdgeId × Edge} {target : BlockId × Block} :
    m.calledBy call = .ok target ↔
      target.1 = call.2.target ∧ m.blocks.block? target.1 = some target.2 := by
  obtain ⟨id, b⟩ := target
  unfold calledBy
  constructor
  · cases hBlock : m.blocks.block? call.2.target with
    | none => nofun
    | some b' =>
        rintro ⟨⟩
        exact ⟨rfl, hBlock⟩
  · rintro ⟨rfl, hBlock⟩
    rw [hBlock]

theorem enumerates_calls {id : BlockId} {calls : List (EdgeId × Edge)} {w : EdgeWalk}
    (h : m.blocks.Walks Edge.source id (some .call) w calls) :
    Enumerates m.blocks.edge? EdgeId.index (fun e => e.source = id ∧ e.kind = .call) calls :=
  h.edges.congr fun e => by simp

/-- The blocks that a block calls are told in the order of the calls, one for each, so a block that
is called twice is told twice. -/
theorem answered_callTargetsFrom (h : m.Sound) (id : BlockId) :
    Answered (m.callTargetsFrom id) (.unknownBlock id) (m.blocks.block? id) fun _ targets =>
      ∃ calls, Enumerates m.blocks.edge? EdgeId.index
          (fun e => e.source = id ∧ e.kind = .call) calls ∧
        List.Forall₂ (fun call target => target.1 = call.2.target ∧
          m.blocks.block? target.1 = some target.2) calls targets := by
  refine .intro (fun hGone => ?_) fun b hLive => ?_
  · rw [callTargetsFrom, callEdgesFrom, BlockGraph.outgoingEdges,
      BlockGraph.block?_eq_none_iff.mp hGone]
    rfl
  · obtain ⟨w, calls, hWalk, hWalks⟩ := BlockGraph.exists_walks
      (BlockGraph.containsBlock_iff.mpr ⟨b, hLive⟩) (leaving_eq h id (some .call))
    have hCalls := enumerates_calls hWalks
    have hAnswer : m.callTargetsFrom id = calls.mapM m.calledBy := by
      rw [callTargetsFrom, callEdgesFrom, hWalk]
      exact congrArg (List.mapM m.calledBy) (EdgeWalk.yields_iff.mp (hWalks.steps 0))
    -- This is where a target that dangles would show.
    have hLook : ∀ call ∈ calls, ∃ target, m.calledBy call = .ok target := by
      intro call hCall
      obtain ⟨hEdge, -⟩ := (hCalls.mem call.1 call.2).mp hCall
      obtain ⟨x, hTarget⟩ := h.wellFormed.blocks.target call.1.index call.2 hEdge
      exact ⟨(call.2.target, x), calledBy_eq_ok_iff.mpr ⟨rfl, hTarget⟩⟩
    obtain ⟨targets, hTargets⟩ := exists_mapM_eq_ok hLook
    refine ⟨targets, hAnswer.trans hTargets, fun targets' => ⟨?_, ?_⟩⟩
    · rintro ⟨calls', hCalls', hPairs⟩
      cases hCalls'.unique hCalls
      have hFound := mapM_eq_ok_iff.mpr (hPairs.imp fun _ _ hPair => calledBy_eq_ok_iff.mpr hPair)
      exact Except.ok.inj (hFound.symm.trans hTargets)
    · rintro rfl
      exact ⟨calls, hCalls,
        (mapM_eq_ok_iff.mp hTargets).imp fun _ _ hFound => calledBy_eq_ok_iff.mp hFound⟩

/-- The target of a stored edge never dangles. Without an address it is in no section. -/
theorem Sound.sectionsForEdgeTarget_eq_ok (h : m.Sound) {id : EdgeId} {e : Edge}
    (hEdge : m.blocks.edge? id = some e) :
    ∃ b hits, m.blocks.block? e.target = some b ∧ m.sectionsForEdgeTarget id = .ok hits ∧
      Enumerates m.sections.section? SectionId.index b.IsIn hits := by
  obtain ⟨b, hTarget⟩ := h.wellFormed.blocks.target id.index e hEdge
  cases hAddress : b.address with
  | none =>
      refine ⟨b, [], hTarget, ?_, ⟨fun id x => by simp [Block.IsIn, hAddress], .nil⟩⟩
      simp only [sectionsForEdgeTarget, hEdge, hTarget, hAddress]
  | some a =>
      refine ⟨b, m.sections.sectionsOn a, hTarget, ?_, ?_⟩
      · simp only [sectionsForEdgeTarget, hEdge, hTarget, hAddress]
      · exact (m.sections.enumerates_sectionList (·.contains a)).congr fun x => by
          simp [Section.contains_iff, Block.IsIn, hAddress]

/-- The sections of the target of an edge are those that hold its address, in their order. -/
theorem answered_sectionsForEdgeTarget (h : m.Sound) (id : EdgeId) :
    Answered (m.sectionsForEdgeTarget id) (.unknownEdge id) (m.blocks.edge? id) fun e hits =>
      ∃ b, m.blocks.block? e.target = some b ∧
        Enumerates m.sections.section? SectionId.index b.IsIn hits := by
  refine .intro (fun hGone => by rw [sectionsForEdgeTarget, hGone]) fun e hEdge => ?_
  obtain ⟨b, hits, hTarget, hAnswer, hHits⟩ := h.sectionsForEdgeTarget_eq_ok hEdge
  refine ⟨hits, hAnswer, fun hits' => ⟨?_, ?_⟩⟩
  · rintro ⟨b', hTarget', hHits'⟩
    cases hTarget'.symm.trans hTarget
    exact hHits'.unique hHits
  · rintro rfl
    exact ⟨b, hTarget, hHits⟩

/-- Sections of linkage stubs are sections of the target in any case. -/
theorem answered_stubSectionsForEdge (h : m.Sound) (id : EdgeId) :
    Answered (m.stubSectionsForEdge id) (.unknownEdge id) (m.blocks.edge? id) fun _ stubs =>
      ∃ hits, m.sectionsForEdgeTarget id = .ok hits ∧ stubs.Sublist hits ∧
        ∀ x, x ∈ stubs ↔ x ∈ hits ∧ x.2.name ∈ stubSectionNames := by
  refine .intro (fun hGone => ?_) fun e hEdge => ?_
  · rw [stubSectionsForEdge, sectionsForEdgeTarget, hGone]
    rfl
  · obtain ⟨b, hits, -, hAnswer, hHits⟩ := h.sectionsForEdgeTarget_eq_ok hEdge
    have hStubs := hHits.filter fun x => stubSectionNames.contains x.name
    refine ⟨_, by rw [stubSectionsForEdge, hAnswer]; rfl, fun stubs => ⟨?_, ?_⟩⟩
    · rintro ⟨hits', hAnswer', hSub, hMem⟩
      cases hAnswer'.symm.trans hAnswer
      refine Enumerates.unique ⟨fun id x => ?_, hHits.rising.sublist hSub⟩ hStubs
      rw [hMem, hHits.mem, and_assoc, List.contains_iff_mem]
    · rintro rfl
      exact ⟨hits, hAnswer, List.filter_sublist, fun x => by simp [List.mem_filter]⟩

/-- A target that has no address is in no section, and a proxy block has none. -/
theorem sectionsForEdgeTarget_eq_nil {id : EdgeId} {e : Edge} {b : Block}
    (hEdge : m.blocks.edge? id = some e) (hTarget : m.blocks.block? e.target = some b)
    (hUnplaced : b.address = none ∨ b.isProxy = true) :
    m.sectionsForEdgeTarget id = .ok [] := by
  have hNone : b.address = none :=
    hUnplaced.elim (fun hAddress => hAddress) Block.address_of_isProxy
  simp only [sectionsForEdgeTarget, hEdge, hTarget, hNone]

/-- The answers to all questions, said of the stores. -/
structure AnswersByDefinition (m : Module) : Prop where
  referentKind : ∀ id, Answered (m.referentKind id) (.unknownSymbol id) (m.symbols.symbol? id)
    fun s kind => m.Denotes s.referent kind
  isProxyReferent : ∀ id,
    Answered (m.isProxyReferent id) (.unknownSymbol id) (m.symbols.symbol? id)
      fun s proxy => (proxy = true ↔ m.Denotes s.referent .proxyBlock)
  symbolResolvesToCode : ∀ name, ∃ code, m.symbolResolvesToCode name = .ok code ∧
    (code = true ↔ (∃ id s, m.symbols.symbol? id = some s ∧ s.name = name) ∧
      ∀ id s, m.symbols.symbol? id = some s → s.name = name → m.Denotes s.referent .codeBlock)
  callTargets : ∀ id, Answered (m.callTargetsFrom id) (.unknownBlock id) (m.blocks.block? id)
    fun _ targets => ∃ calls,
      Enumerates m.blocks.edge? EdgeId.index (fun e => e.source = id ∧ e.kind = .call) calls ∧
      List.Forall₂ (fun call target => target.1 = call.2.target ∧
        m.blocks.block? target.1 = some target.2) calls targets
  sections : ∀ id, Answered (m.sectionsForEdgeTarget id) (.unknownEdge id) (m.blocks.edge? id)
    fun e hits => ∃ b, m.blocks.block? e.target = some b ∧
      Enumerates m.sections.section? SectionId.index b.IsIn hits
  unplaced : ∀ id e b, m.blocks.edge? id = some e → m.blocks.block? e.target = some b →
    b.address = none ∨ b.isProxy = true → m.sectionsForEdgeTarget id = .ok []
  stubSections : ∀ id, Answered (m.stubSectionsForEdge id) (.unknownEdge id) (m.blocks.edge? id)
    fun _ stubs => ∃ hits, m.sectionsForEdgeTarget id = .ok hits ∧ stubs.Sublist hits ∧
      ∀ x, x ∈ stubs ↔ x ∈ hits ∧ x.2.name ∈ stubSectionNames

theorem Sound.answersByDefinition (h : m.Sound) : m.AnswersByDefinition where
  referentKind := answered_referentKind h
  isProxyReferent := answered_isProxyReferent h
  symbolResolvesToCode := h.symbolResolvesToCode_eq_ok
  callTargets := answered_callTargetsFrom h
  sections := answered_sectionsForEdgeTarget h
  unplaced _ _ _ hEdge hTarget hUnplaced := sectionsForEdgeTarget_eq_nil hEdge hTarget hUnplaced
  stubSections := answered_stubSectionsForEdge h

/-- The answer is read off the list of sections and keeps its order. -/
theorem sectionsForEdgeTarget_sublist {id : EdgeId} {hits : List (SectionId × Section)}
    (hAnswer : m.sectionsForEdgeTarget id = .ok hits) : hits.Sublist m.sections.sectionList := by
  unfold sectionsForEdgeTarget at hAnswer
  split at hAnswer
  · cases hAnswer
  · split at hAnswer
    · cases hAnswer
    · split at hAnswer
      · cases hAnswer
        exact List.filter_sublist
      · cases hAnswer
        exact List.nil_sublist _

/-- Sections are told in the order in which they were added, behind those that were there at the
start. -/
theorem Run.sectionsForEdgeTarget_sublist (h : start.Sound) (run : start.Run given taken now)
    {id : EdgeId} {hits : List (SectionId × Section)}
    (hAnswer : now.sectionsForEdgeTarget id = .ok hits) :
    (hits.map fun x => (ItemId.ofSection x.1).slot).Sublist
      (start.slots .sections ++ given.map ItemId.slot) := by
  refine List.Sublist.trans ?_ (run.slots_sublist h .sections)
  rw [slots_sections]
  exact (Module.sectionsForEdgeTarget_sublist hAnswer).map _

/-- The questions that join the parts of a module never meet a reference into nothing. Each fails
only if the thing that it is about is not there, with the error that names this thing, and else it
answers by its definition. The name that is asked about may be missing, so its question never
fails. Along any history sections are told in the order in which they were added. -/
theorem queries_answer_by_definition :
    (∀ {m : Module}, m.Reachable → m.AnswersByDefinition) ∧
    ∀ {start now : Module} {given taken : List ItemId}, start.Reachable →
      start.Run given taken now → ∀ id hits, now.sectionsForEdgeTarget id = .ok hits →
        (hits.map fun x => (ItemId.ofSection x.1).slot).Sublist
          (start.slots .sections ++ given.map ItemId.slot) :=
  ⟨fun h => h.sound.answersByDefinition,
    fun hStart run _ _ hAnswer => run.sectionsForEdgeTarget_sublist hStart.sound hAnswer⟩

/-- A block that calls itself is moved, a proxy block gets the name that it has, and two sections
that overlap are laid over its new place. One of the sections holds linkage stubs. -/
theorem queries_answer_by_definition_overlay :
    let b : BlockId := ⟨default, 0⟩
    let moved : Block := .code (some 0x2010) 16 0
    let stubs : SectionId × Section := (⟨1⟩, ⟨".plt", 0x2000, 0x100, .code⟩)
    let overlay : SectionId × Section := (⟨2⟩, ⟨".overlay", 0x2010, 0x10, .code⟩)
    let start := (Operation.setBlockAddress b (some 0x2010)).run.after (recursion default default)
    let start := Operation.addProxyBlock.run.after start
    let start := (Operation.addSymbol "loop" (.block ⟨default, 1⟩)).run.after start
    let m := (Operation.addSection stubs.2).run.after start
    let m := (Operation.addSection overlay.2).run.after m
    m.Reachable ∧ m.referentKind ⟨0⟩ = .ok .codeBlock ∧ m.isProxyReferent ⟨1⟩ = .ok true ∧
      m.symbolResolvesToCode "loop" = .ok false ∧ m.callTargetsFrom b = .ok [(b, moved)] ∧
      m.sectionsForEdgeTarget ⟨0⟩ = .ok [stubs, overlay] ∧
      Enumerates m.sections.section? SectionId.index moved.IsIn [stubs, overlay] ∧
      m.stubSectionsForEdge ⟨0⟩ = .ok [stubs] ∧
      m.sectionsForEdgeTarget ⟨7⟩ = .error (.unknownEdge ⟨7⟩) ∧
      [(ItemId.ofSection ⟨1⟩).slot, (ItemId.ofSection ⟨2⟩).slot].Sublist
        (start.slots .sections ++ [(ItemId.ofSection ⟨1⟩).slot, (ItemId.ofSection ⟨2⟩).slot]) := by
  intro b moved stubs overlay start₁ start₂ start m₁ m
  have hStart : start.Reachable := by
    repeat apply Reachable.operation
    exact reachable_recursion default default
  have hReachable : m.Reachable :=
    (hStart.operation (.addSection stubs.2)).operation (.addSection overlay.2)
  have hRun : start.Run ((Operation.addSection stubs.2).givenAt start ++
      (Operation.addSection overlay.2).givenAt m₁) _ m :=
    (Run.start.change (.addSection stubs.2)).change (.addSection overlay.2)
  have hGiven : (Operation.addSection stubs.2).givenAt start ++
      (Operation.addSection overlay.2).givenAt m₁ = [.ofSection ⟨1⟩, .ofSection ⟨2⟩] := by
    decide +kernel
  have hBlock : m.blocks.block? b = some moved := by decide +kernel
  have hProxy : m.blocks.block? ⟨default, 1⟩ = some .proxy := by decide +kernel
  have hFirst : m.symbols.symbol? ⟨0⟩ = some ⟨"loop", .block b, false⟩ := by decide +kernel
  have hSecond : m.symbols.symbol? ⟨1⟩ = some ⟨"loop", .block ⟨default, 1⟩, false⟩ := by
    decide +kernel
  have hTargets : m.callTargetsFrom b = .ok [(b, moved)] := by decide +kernel
  have hSections : m.sectionsForEdgeTarget ⟨0⟩ = .ok [stubs, overlay] := by decide +kernel
  have hStubs : m.stubSectionsForEdge ⟨0⟩ = .ok [stubs] := by decide +kernel
  have hNoEdge : m.blocks.edge? ⟨7⟩ = none := by decide +kernel
  have h := queries_answer_by_definition.1 hReachable
  have hOrder := queries_answer_by_definition.2 hStart hRun ⟨0⟩ _ hSections
  rw [hGiven] at hOrder
  have hMixed : m.symbolResolvesToCode "loop" = .ok false := by
    obtain ⟨code, hCode, hAll⟩ := h.symbolResolvesToCode "loop"
    cases code with
    | false => exact hCode
    | true => cases ((hAll.mp rfl).2 ⟨1⟩ _ hSecond rfl).unique (.block hProxy)
  obtain ⟨e, hEdge, y, hTarget, hEnumerates⟩ := ((h.sections ⟨0⟩).ok _).mp hSections
  have hLoop : m.blocks.edge? ⟨0⟩ = some ⟨b, b, { kind := .call }⟩ := by decide +kernel
  rw [Option.some.inj (hEdge.symm.trans hLoop)] at hTarget
  have hMoved : y = moved := Option.some.inj (hTarget.symm.trans hBlock)
  exact ⟨hReachable, ((h.referentKind ⟨0⟩).ok _).mpr ⟨_, hFirst, .block hBlock⟩,
    ((h.isProxyReferent ⟨1⟩).ok _).mpr ⟨_, hSecond, iff_of_true rfl (.block hProxy)⟩, hMixed,
    hTargets, hSections, hMoved ▸ hEnumerates, hStubs,
    ((h.sections ⟨7⟩).error _).mpr ⟨rfl, hNoEdge⟩, hOrder⟩

end Module

end Disassembly
