import Disassembly.Proofs.Atomicity
import Disassembly.Proofs.ConsistencyCheck

/-! What each change of a block graph does: under which conditions it succeeds and what the
graph is then. A change that fails leaves the graph as it was. -/
namespace Disassembly

/-- The counter goes up by one, unless that would be more than it can hold. -/
theorem nextIndex?_eq_some_iff {n next : UInt32} :
    nextIndex? n = some next ↔ n.toNat + 1 < UInt32.size ∧ next = n + 1 := by
  unfold nextIndex?
  by_cases h : n.toNat + 1 < UInt32.size <;> simp [h, eq_comm]

/-- A counter that moves on leaves the index it gave out behind. -/
theorem lt_of_nextIndex? {n next : UInt32} (h : nextIndex? n = some next) : n < next := by
  obtain ⟨hRoom, rfl⟩ := nextIndex?_eq_some_iff.mp h
  rw [UInt32.lt_iff_toNat_lt, UInt32.toNat_add]
  have hSmall : (n.toNat + (1 : UInt32).toNat) % 2 ^ 32 = n.toNat + 1 := Nat.mod_eq_of_lt hRoom
  omega

namespace Block

/-- A block that is made is of the kind that was asked for, and lies within the addresses. -/
theorem fits_of_ofAttributes {kind : BlockKind} {attributes : BlockAttributes} {b : Block}
    (h : ofAttributes kind attributes = .ok b) : b.Fits ∧ b.kind = kind := by
  have hValid : ∀ b', (do b'.validate; return b' : Except BlockFault Block) = .ok b →
      b.Fits ∧ b = b' := by
    intro b' hb
    obtain ⟨⟨⟩, hFits, hSame⟩ := Checks.bind_eq_ok.mp hb
    cases hSame
    exact ⟨validate_eq_ok_iff.mp hFits, rfl⟩
  cases kind with
  | code =>
      obtain ⟨hFits, rfl⟩ := hValid _ h
      exact ⟨hFits, rfl⟩
  | data =>
      by_cases hMode : attributes.decodeMode ≠ 0
      · simp only [ofAttributes, if_pos hMode] at h
        cases h
      · simp only [ofAttributes, if_neg hMode] at h
        obtain ⟨hFits, rfl⟩ := hValid _ h
        exact ⟨hFits, rfl⟩
  | proxy =>
      by_cases hExtent : attributes.address.isSome ∨ attributes.size.isSome
      · simp only [ofAttributes, if_pos hExtent] at h
        cases h
      by_cases hMode : attributes.decodeMode ≠ 0
      · simp only [ofAttributes, if_neg hExtent, if_pos hMode] at h
        cases h
      · simp only [ofAttributes, if_neg hExtent, if_neg hMode] at h
        obtain ⟨hFits, rfl⟩ := hValid .proxy h
        exact ⟨hFits, rfl⟩

/-- A block that takes an address stays of its kind. -/
theorem kind_of_withAddress {b moved : Block} {a : Option UInt64}
    (h : b.withAddress a = .ok moved) : moved.kind = b.kind := by
  cases b <;> cases h <;> rfl

end Block

namespace BlockGraph

variable {g g' : BlockGraph}

/-- When a block is made, and the graph then: it is put under the next index, and no list of edges
changes. -/
theorem addBlock_eq_ok {kind : BlockKind} {attributes : BlockAttributes} {id : BlockId} :
    addBlock kind attributes g = .ok id g' ↔
      ∃ b next, Block.ofAttributes kind attributes = .ok b ∧
        nextIndex? g.nextBlock = some next ∧ id = g.idOf g.nextBlock ∧
        g' = { g with nextBlock := next, blocks := g.blocks.insert g.nextBlock b } := by
  simp only [addBlock, Edit.bind_eq_ok, Edit.require_eq_ok, Edit.get_eq_ok, Edit.demand_eq_ok,
    Edit.set_eq_ok, Edit.pure_eq_ok]
  constructor
  · rintro ⟨b, _, ⟨hb, rfl⟩, _, _, ⟨rfl, rfl⟩, next, _, ⟨hNext, rfl⟩, ⟨⟩, _, rfl, rfl, rfl⟩
    exact ⟨b, next, hb, hNext, rfl, rfl⟩
  · rintro ⟨b, next, hb, hNext, rfl, rfl⟩
    exact ⟨b, g, ⟨hb, rfl⟩, g, g, ⟨rfl, rfl⟩, next, g, ⟨hNext, rfl⟩, ⟨⟩, _, rfl, rfl, rfl⟩

theorem atomic_addBlock (kind : BlockKind) (attributes : BlockAttributes) :
    Edit.Atomic (addBlock kind attributes) := by
  apply (Edit.quiet_require _ _).bind
  intro b
  apply Edit.quiet_get.bind
  intro g
  apply (Edit.quiet_demand _ _).bind
  intro next
  exact Edit.atomic_set _ _

/-- The edge that joins two blocks gets the next index, at the end of the list of each. -/
theorem addEdge_eq_ok {source target : BlockId} {label : EdgeLabel} {id : EdgeId} :
    addEdge source target label g = .ok id g' ↔
      ∃ b next, g.block? source = some b ∧ b.isProxy = false ∧
        (∃ b', g.block? target = some b') ∧ nextIndex? g.nextEdge = some next ∧
        id = ⟨g.nextEdge⟩ ∧
        g' = { g with
          nextEdge := next
          edges := g.edges.insert g.nextEdge ⟨source, target, label⟩
          outgoing := g.outgoing.push source.index ⟨g.nextEdge⟩
          incoming := g.incoming.push target.index ⟨g.nextEdge⟩ } := by
  simp only [addEdge, Edit.bind_eq_ok, Edit.refuseIf_eq_ok, Edit.get_eq_ok, Edit.demand_eq_ok,
    Edit.set_eq_ok, Edit.pure_eq_ok, block?_eq_some_iff]
  constructor
  · rintro ⟨_, _, ⟨rfl, rfl⟩, ⟨⟩, _, ⟨hTags, rfl⟩, b, _, ⟨hSource, rfl⟩, ⟨⟩, _, ⟨hTarget, rfl⟩,
      ⟨⟩, _, ⟨hProxy, rfl⟩, next, _, ⟨hNext, rfl⟩, ⟨⟩, _, rfl, rfl, rfl⟩
    have hOwn : source.graph = g.tag ∧ target.graph = g.tag := by
      simpa [owns, not_or] using hTags
    have hLive : g.blocks.contains target.index = true := by simpa using hTarget
    obtain ⟨b', hb'⟩ := Table.contains_iff.mp hLive
    exact ⟨b, next, ⟨hOwn.1, hSource⟩, by simpa using hProxy, ⟨b', hOwn.2, hb'⟩, hNext, rfl, rfl⟩
  · rintro ⟨b, next, ⟨hSourceTag, hSource⟩, hProxy, ⟨b', hTargetTag, hTarget⟩, hNext, rfl, rfl⟩
    have hLive : g.blocks.contains target.index = true := Table.contains_iff.mpr ⟨b', hTarget⟩
    exact ⟨g, g, ⟨rfl, rfl⟩, ⟨⟩, g, ⟨by simp [owns, hSourceTag, hTargetTag], rfl⟩, b, g,
      ⟨hSource, rfl⟩, ⟨⟩, g, ⟨by simp [hLive], rfl⟩, ⟨⟩, g, ⟨by simp [hProxy], rfl⟩, next, g,
      ⟨hNext, rfl⟩, ⟨⟩, _, rfl, rfl, rfl⟩

theorem atomic_addEdge (source target : BlockId) (label : EdgeLabel) :
    Edit.Atomic (addEdge source target label) := by
  apply Edit.quiet_get.bind
  intro g
  apply (Edit.quiet_refuseIf _ _).bind
  intro _
  apply (Edit.quiet_demand _ _).bind
  intro b
  apply (Edit.quiet_refuseIf _ _).bind
  intro _
  apply (Edit.quiet_refuseIf _ _).bind
  intro _
  apply (Edit.quiet_demand _ _).bind
  intro next
  exact Edit.atomic_set _ _

/-- An edge is removed when it is there. It is taken out of the store and off the lists of its two
ends. -/
theorem removeEdge_eq_ok {id : EdgeId} {e : Edge} :
    removeEdge id g = .ok e g' ↔
      g.edges.get? id.index = some e ∧
        g' = { g with
          edges := g.edges.erase id.index
          outgoing := g.outgoing.drop e.source.index id
          incoming := g.incoming.drop e.target.index id } := by
  simp only [removeEdge, Edit.bind_eq_ok, Edit.get_eq_ok, Edit.demand_eq_ok,
    Edit.set_eq_ok, Edit.pure_eq_ok, edge?]
  constructor
  · rintro ⟨_, _, ⟨rfl, rfl⟩, e, _, ⟨he, rfl⟩, ⟨⟩, _, rfl, rfl, rfl⟩
    exact ⟨he, rfl⟩
  · rintro ⟨he, rfl⟩
    exact ⟨g, g, ⟨rfl, rfl⟩, e, g, ⟨he, rfl⟩, ⟨⟩, _, rfl, rfl, rfl⟩

theorem atomic_removeEdge (id : EdgeId) : Edit.Atomic (removeEdge id) := by
  apply Edit.quiet_get.bind
  intro g
  apply (Edit.quiet_demand _ _).bind
  intro e
  exact Edit.atomic_set _ _

/-- A block is removed when it resolves and the count of the edges on its lists is zero. Its lists
go with it, and the store of edges is left as it is. -/
theorem removeBlock_eq_ok {id : BlockId} {b : Block} :
    removeBlock id g = .ok b g' ↔
      g.block? id = some b ∧ g.incidentEdgeCount id = 0 ∧
        g' = { g with
          blocks := g.blocks.erase id.index
          outgoing := g.outgoing.erase id.index
          incoming := g.incoming.erase id.index } := by
  simp only [removeBlock, Edit.bind_eq_ok, Edit.get_eq_ok, Edit.demand_eq_ok,
    Edit.refuseIf_eq_ok, Edit.set_eq_ok, Edit.pure_eq_ok]
  constructor
  · rintro ⟨_, _, ⟨rfl, rfl⟩, b, _, ⟨hb, rfl⟩, ⟨⟩, _, ⟨hCount, rfl⟩, ⟨⟩, _, rfl, rfl, rfl⟩
    exact ⟨hb, by omega, rfl⟩
  · rintro ⟨hb, hCount, rfl⟩
    exact ⟨g, g, ⟨rfl, rfl⟩, b, g, ⟨hb, rfl⟩, ⟨⟩, g, ⟨by omega, rfl⟩, ⟨⟩, _, rfl, rfl, rfl⟩

theorem atomic_removeBlock (id : BlockId) : Edit.Atomic (removeBlock id) := by
  apply Edit.quiet_get.bind
  intro g
  apply (Edit.quiet_demand _ _).bind
  intro b
  apply (Edit.quiet_refuseIf _ _).bind
  intro _
  exact Edit.atomic_set _ _

/-- A block is moved when it resolves, takes the address and fits there. It is put back under its
index. -/
theorem setBlockAddress_eq_ok {id : BlockId} {address : Option UInt64} {u : Unit} :
    setBlockAddress id address g = .ok u g' ↔
      ∃ b moved, g.block? id = some b ∧ b.withAddress address = .ok moved ∧ moved.Fits ∧
        g' = { g with blocks := g.blocks.insert id.index moved } := by
  simp only [setBlockAddress, Edit.bind_eq_ok, Edit.get_eq_ok, Edit.demand_eq_ok,
    Edit.require_eq_ok, Edit.set_eq_ok]
  constructor
  · rintro ⟨_, _, ⟨rfl, rfl⟩, b, _, ⟨hb, rfl⟩, moved, _, ⟨hMoved, rfl⟩, ⟨⟩, _, ⟨hFits, rfl⟩, rfl⟩
    exact ⟨b, moved, hb, hMoved, Block.validate_eq_ok_iff.mp hFits, rfl⟩
  · rintro ⟨b, moved, hb, hMoved, hFits, rfl⟩
    exact ⟨g, g, ⟨rfl, rfl⟩, b, g, ⟨hb, rfl⟩, moved, g, ⟨hMoved, rfl⟩, ⟨⟩, g,
      ⟨Block.validate_eq_ok_iff.mpr hFits, rfl⟩, rfl⟩

theorem atomic_setBlockAddress (id : BlockId) (address : Option UInt64) :
    Edit.Atomic (setBlockAddress id address) := by
  apply Edit.quiet_get.bind
  intro g
  apply (Edit.quiet_demand _ _).bind
  intro b
  apply (Edit.quiet_require _ _).bind
  intro moved
  apply (Edit.quiet_require _ _).bind
  intro _
  exact Edit.atomic_set_unit _

end BlockGraph

end Disassembly
