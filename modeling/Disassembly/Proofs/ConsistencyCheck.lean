import Disassembly.Consistency
import Disassembly.Proofs.TableOrder
import Disassembly.Proofs.WellFormed

/-! The checks of stored content accept exactly what keeps every rule. They look at the last
index of a store alone and stop at the first fault; neither lets anything through nor turns
anything down that the rules do not. -/
namespace Disassembly

namespace Checks

variable {α β ε ε' : Type}

/-- A sequence of checks passes exactly when each of them does. -/
theorem bind_eq_ok {x : Except ε α} {f : α → Except ε β} {b : β} :
    (x >>= f) = .ok b ↔ ∃ a, x = .ok a ∧ f a = .ok b := by
  cases x with
  | ok a =>
      change f a = .ok b ↔ _
      simp
  | error e =>
      change Except.error e = .ok b ↔ _
      simp

theorem andThen_eq_ok {x y : Except ε Unit} :
    (do x; y) = .ok () ↔ x = .ok () ∧ y = .ok () := by
  rw [bind_eq_ok]
  constructor
  · rintro ⟨⟨⟩, hx, hy⟩
    exact ⟨hx, hy⟩
  · rintro ⟨hx, hy⟩
    exact ⟨(), hx, hy⟩

/-- Giving another error for a fault changes nothing about what passes. -/
theorem mapError_eq_ok {x : Except ε α} {f : ε → ε'} {a : α} :
    x.mapError f = .ok a ↔ x = .ok a := by
  cases x <;> simp [Except.mapError]

/-- A list of checks passes exactly when the check passes on every element. -/
theorem forM_eq_ok {l : List α} {f : α → Except ε Unit} :
    l.forM f = .ok () ↔ ∀ a ∈ l, f a = .ok () := by
  induction l with
  | nil =>
      change Except.ok () = .ok () ↔ _
      simp
  | cons a rest ih =>
      change (f a >>= fun _ => rest.forM f) = .ok () ↔ _
      rw [andThen_eq_ok, ih]
      simp

end Checks

open Checks

/-- A block passes exactly when its range ends at an address, counted over the natural numbers. -/
theorem Block.validate_eq_ok_iff {b : Block} : b.validate = .ok () ↔ b.Fits := by
  unfold validate Fits
  cases ha : b.address with
  | none => simp
  | some a =>
      cases hn : b.size with
      | none => simp
      | some n =>
          by_cases h : a.toNat + n.toNat < UInt64.size <;> simp [h]

/-- A section passes exactly when it has a name and its range ends at an address. -/
theorem Section.validate_eq_ok_iff {x : Section} : x.validate = .ok () ↔ x.Fits := by
  unfold validate Fits
  by_cases hName : x.name = ""
  · simp [hName]
  · by_cases h : x.start.toNat + x.size.toNat < UInt64.size <;> simp [hName, h]

/-- The counter is compared with the last index alone, which bounds all others. -/
theorem checkCounter_eq_ok_iff {α : Type} {fault : UInt32 → UInt32 → ModuleViolation}
    {t : Table UInt32 α} {next : UInt32} :
    checkCounter fault t.lastKey? next = .ok () ↔ ∀ k v, t.get? k = some v → k < next := by
  rw [← Table.lastKey?_lt_iff]
  cases h : t.lastKey? with
  | none => simp [checkCounter]
  | some last => by_cases hlt : last < next <;> simp [checkCounter, hlt]

namespace BlockGraph

theorem checkBlock_eq_ok_iff {i : UInt32} {b : Block} : checkBlock i b = .ok () ↔ b.Fits := by
  rw [checkBlock, mapError_eq_ok, Block.validate_eq_ok_iff]

/-- An endpoint passes exactly when it resolves, which takes the tag of the graph and a live
index. -/
theorem checkEndpoint_eq_ok_iff {g : BlockGraph} {edge : EdgeId} {id : BlockId} :
    g.checkEndpoint edge id = .ok () ↔ ∃ b, g.block? id = some b := by
  simp only [checkEndpoint, owns, block?_eq_some_iff]
  by_cases hTag : id.graph = g.tag
  · by_cases hLive : g.blocks.contains id.index = true
    · have := Table.contains_iff.mp hLive
      simpa [hTag, hLive] using this
    · have : ¬∃ b, g.blocks.get? id.index = some b := fun h => hLive (Table.contains_iff.mpr h)
      simpa [hTag, hLive] using this
  · simp [hTag]

/-- An edge passes exactly when both of its ends resolve and its source is no proxy block. -/
theorem checkEdge_eq_ok_iff {g : BlockGraph} {id : EdgeId} {e : Edge} :
    g.checkEdge id e = .ok () ↔
      (∃ b, g.block? e.source = some b ∧ b.isProxy = false) ∧
        ∃ b, g.block? e.target = some b := by
  unfold checkEdge
  rw [andThen_eq_ok, andThen_eq_ok, checkEndpoint_eq_ok_iff, checkEndpoint_eq_ok_iff]
  constructor
  · rintro ⟨⟨b, hSource⟩, hTarget, hProxy⟩
    obtain ⟨-, hb⟩ := block?_eq_some_iff.mp hSource
    refine ⟨⟨b, hSource, ?_⟩, hTarget⟩
    cases hb' : b.isProxy with
    | false => rfl
    | true =>
        simp only [hb, Option.any_some, hb', if_true] at hProxy
        cases hProxy
  · rintro ⟨⟨b, hSource, hProxy⟩, hTarget⟩
    obtain ⟨-, hb⟩ := block?_eq_some_iff.mp hSource
    refine ⟨⟨b, hSource⟩, hTarget, ?_⟩
    simp only [hb, Option.any_some, hProxy]
    rfl

/-- A graph passes exactly when it keeps every rule of graphs. -/
theorem check_eq_ok_iff {g : BlockGraph} : g.check = .ok () ↔ g.WellFormed := by
  unfold check
  rw [andThen_eq_ok, andThen_eq_ok, andThen_eq_ok, checkCounter_eq_ok_iff,
    checkCounter_eq_ok_iff, forM_eq_ok, forM_eq_ok]
  constructor
  · rintro ⟨hBlock, hEdge, hFits, hEnds⟩
    have hEnds' : ∀ i e, g.edges.get? i = some e → g.checkEdge ⟨i⟩ e = .ok () := fun i e he =>
      hEnds (⟨i⟩, e) (List.mem_map.mpr ⟨(i, e), Table.get?_eq_some_iff_mem.mp he, rfl⟩)
    exact {
      blockIndex := hBlock
      edgeIndex := hEdge
      blockFits := fun i b hb =>
        checkBlock_eq_ok_iff.mp (hFits (i, b) (Table.get?_eq_some_iff_mem.mp hb))
      source := fun i e he => (checkEdge_eq_ok_iff.mp (hEnds' i e he)).1
      target := fun i e he => (checkEdge_eq_ok_iff.mp (hEnds' i e he)).2 }
  · intro h
    refine ⟨h.blockIndex, h.edgeIndex, ?_, ?_⟩
    · rintro ⟨i, b⟩ hm
      exact checkBlock_eq_ok_iff.mpr (h.blockFits i b (Table.get?_eq_some_iff_mem.mpr hm))
    · intro entry hm
      obtain ⟨⟨i, e⟩, hMem, rfl⟩ := List.mem_map.mp hm
      have he := Table.get?_eq_some_iff_mem.mpr hMem
      exact checkEdge_eq_ok_iff.mpr ⟨h.source i e he, h.target i e he⟩

end BlockGraph

/-- A symbol passes exactly when the block that it names resolves. Addresses and plain values always
pass. -/
theorem SymbolTable.checkSymbol_eq_ok_iff {g : BlockGraph} {s : Symbol} :
    checkSymbol g s = .ok () ↔ ∀ id, s.referent = .block id → ∃ b, g.block? id = some b := by
  unfold checkSymbol
  cases s.referent with
  | block id =>
      by_cases h : g.containsBlock id = true
      · have hLive := BlockGraph.containsBlock_iff.mp h
        simp [h, hLive]
      · have hGone : ¬∃ b, g.block? id = some b := fun hb => h (BlockGraph.containsBlock_iff.mpr hb)
        simpa [h] using hGone
  | address a => simp
  | value v => simp

/-- Symbols pass exactly when they keep every rule next to their graph. -/
theorem SymbolTable.check_eq_ok_iff {t : SymbolTable} {g : BlockGraph} :
    t.check g = .ok () ↔ t.WellFormed g := by
  unfold check
  rw [andThen_eq_ok, checkCounter_eq_ok_iff, forM_eq_ok]
  constructor
  · rintro ⟨hIndex, hAll⟩
    refine ⟨hIndex, fun i s id hs => ?_⟩
    exact checkSymbol_eq_ok_iff.mp (hAll s (Table.mem_values_iff.mpr ⟨i, hs⟩)) id
  · rintro ⟨hIndex, hReferent⟩
    refine ⟨hIndex, fun s hs => checkSymbol_eq_ok_iff.mpr fun id => ?_⟩
    obtain ⟨i, hi⟩ := Table.mem_values_iff.mp hs
    exact hReferent i s id hi

theorem AddressSpace.check_eq_ok_iff {s : AddressSpace} : s.check = .ok () ↔ s.WellFormed := by
  unfold check
  rw [andThen_eq_ok, checkCounter_eq_ok_iff, forM_eq_ok]
  constructor
  · rintro ⟨hIndex, hAll⟩
    refine ⟨hIndex, fun i x hx => ?_⟩
    exact Section.validate_eq_ok_iff.mp
      (mapError_eq_ok.mp (hAll x (Table.mem_values_iff.mpr ⟨i, hx⟩)))
  · rintro ⟨hIndex, hFits⟩
    refine ⟨hIndex, fun x hx => ?_⟩
    obtain ⟨i, hi⟩ := Table.mem_values_iff.mp hx
    exact mapError_eq_ok.mpr (Section.validate_eq_ok_iff.mpr (hFits i x hi))

namespace Module

theorem checkEntryPoint_eq_ok_iff {m : Module} :
    m.checkEntryPoint = .ok () ↔ ∀ id, m.entryPoint = some id →
      ∃ b, m.blocks.block? id = some b ∧ b.isCode = true := by
  unfold checkEntryPoint
  cases m.entryPoint with
  | none => simp
  | some id =>
      cases hBlock : m.blocks.block? id with
      | none => simp [hBlock]
      | some b => by_cases hCode : b.isCode = true <;> simp [hBlock, hCode]

/-- A module passes exactly when each of its parts does, which is all that its rules ask for. -/
theorem check_eq_ok_iff {m : Module} : m.check = .ok () ↔ m.WellFormed := by
  unfold check
  rw [andThen_eq_ok, andThen_eq_ok, andThen_eq_ok, BlockGraph.check_eq_ok_iff,
    SymbolTable.check_eq_ok_iff, AddressSpace.check_eq_ok_iff, checkEntryPoint_eq_ok_iff]
  exact ⟨fun ⟨a, b, c, d⟩ => ⟨a, b, c, d⟩, fun ⟨a, b, c, d⟩ => ⟨a, b, c, d⟩⟩

end Module

namespace Program

/-- Each module is compared with those before it, which settles every pair. -/
theorem checkDistinct_eq_ok_iff {earlier modules : List Module} :
    checkDistinct earlier modules = .ok () ↔
      Distinct modules ∧
        ∀ m ∈ modules, ∀ e ∈ earlier, e.id ≠ m.id ∧ e.graphTag ≠ m.graphTag := by
  induction modules generalizing earlier with
  | nil => simpa [checkDistinct] using distinct_nil
  | cons m rest ih =>
      rw [distinct_cons_iff, checkDistinct]
      by_cases hId : earlier.any (·.id = m.id) = true
      · obtain ⟨e, he, hSame⟩ := List.any_eq_true.mp hId
        simp only [hId, if_true, reduceCtorEq, false_iff]
        intro h
        exact (h.2 m (List.mem_cons_self ..) e he).1 (of_decide_eq_true hSame)
      by_cases hTag : earlier.any (·.graphTag = m.graphTag) = true
      · obtain ⟨e, he, hSame⟩ := List.any_eq_true.mp hTag
        simp only [hId, hTag, if_true, Bool.false_eq_true, if_false, reduceCtorEq, false_iff]
        intro h
        exact (h.2 m (List.mem_cons_self ..) e he).2 (of_decide_eq_true hSame)
      have hFree : ∀ e ∈ earlier, e.id ≠ m.id ∧ e.graphTag ≠ m.graphTag := by
        intro e he
        simp only [List.any_eq_true, decide_eq_true_eq, not_exists, not_and] at hId hTag
        exact ⟨hId e he, hTag e he⟩
      simp only [hId, hTag, Bool.false_eq_true, if_false, ih]
      constructor
      · intro ⟨hRest, hApart⟩
        -- The first module is one of the earlier ones when the others are looked at.
        have hFirst : ∀ n ∈ rest, n.id ≠ m.id ∧ n.graphTag ≠ m.graphTag := by
          intro n hn
          obtain ⟨hIds, hTags⟩ := hApart n hn m (by simp)
          exact ⟨hIds.symm, hTags.symm⟩
        refine ⟨⟨hRest, hFirst⟩, fun n hn e he => ?_⟩
        rcases List.mem_cons.mp hn with rfl | hn
        · exact hFree e he
        · exact hApart n hn e (List.mem_append_left _ he)
      · intro ⟨⟨hRest, hFirst⟩, hApart⟩
        refine ⟨hRest, fun n hn e he => ?_⟩
        rcases List.mem_append.mp he with he | he
        · exact hApart n (List.mem_cons_of_mem _ hn) e he
        · rw [List.mem_singleton.mp he]
          exact ⟨(hFirst n hn).1.symm, (hFirst n hn).2.symm⟩

/-- A program passes exactly when its modules are told apart and each of them passes. -/
theorem check_eq_ok_iff {p : Program} : p.check = .ok () ↔ p.WellFormed := by
  unfold check
  rw [andThen_eq_ok, checkDistinct_eq_ok_iff, forM_eq_ok]
  constructor
  · rintro ⟨⟨hDistinct, -⟩, hAll⟩
    exact ⟨hDistinct, fun m hm => Module.check_eq_ok_iff.mp (mapError_eq_ok.mp (hAll m hm))⟩
  · rintro ⟨hDistinct, hModules⟩
    exact ⟨⟨hDistinct, by simp⟩,
      fun m hm => mapError_eq_ok.mpr (Module.check_eq_ok_iff.mpr (hModules m hm))⟩

/-- Content is taken over exactly when it keeps every rule. -/
theorem accept_eq_ok_iff {p q : Program} : p.accept = .ok q ↔ p.WellFormed ∧ q = p.relink := by
  unfold accept
  rw [bind_eq_ok, ← check_eq_ok_iff]
  constructor
  · rintro ⟨⟨⟩, hCheck, hLink⟩
    cases hLink
    exact ⟨hCheck, rfl⟩
  · rintro ⟨hCheck, rfl⟩
    exact ⟨(), hCheck, rfl⟩

end Program

end Disassembly
