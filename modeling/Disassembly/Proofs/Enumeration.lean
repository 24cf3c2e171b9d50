import Disassembly.Proofs.Listing

/-! What an answer has to be that lists the things of a store. It holds those that pass a test,
under their ids and with the content that they have now, and its order is that of the indices.
Nothing is said of how the answer is found, and there is only one that will do. -/
namespace Disassembly

variable {ι α : Type}

/-- Nothing stands before itself where indices rise. -/
theorem irrefl_rising (index : ι → UInt32) : Std.Irrefl fun x y => index x < index y :=
  ⟨fun _ => UInt32.lt_irrefl _⟩

/-- No two things stand before one another where indices rise. -/
theorem antisymm_rising (index : ι → UInt32) : Std.Antisymm fun x y => index x < index y :=
  ⟨fun _ _ hxy hyx => absurd (UInt32.lt_trans hxy hyx) (UInt32.lt_irrefl _)⟩

/-- The list holds exactly what a store has and a test lets pass, and its indices rise. -/
structure Enumerates (find : ι → Option α) (index : ι → UInt32) (test : α → Prop)
    (l : List (ι × α)) : Prop where
  mem : ∀ id v, (id, v) ∈ l ↔ find id = some v ∧ test v
  rising : l.Pairwise fun x y => index x.1 < index y.1

namespace Enumerates

variable {find : ι → Option α} {index : ι → UInt32} {test test' : α → Prop} {l l' : List (ι × α)}

/-- Tests that let the same things pass have the same answers. -/
theorem congr (h : Enumerates find index test l) (hTest : ∀ v, test v ↔ test' v) :
    Enumerates find index test' l where
  mem id v := (h.mem id v).trans (and_congr_right fun _ => hTest v)
  rising := h.rising

/-- A further test keeps the order of what passes it. -/
theorem filter (h : Enumerates find index test l) (keep : α → Bool) :
    Enumerates find index (fun v => test v ∧ keep v = true) (l.filter fun x => keep x.2) where
  mem id v := by rw [List.mem_filter, h.mem, and_assoc]
  rising := h.rising.filter _

/-- No id stands twice, not even with different content. -/
theorem nodup (h : Enumerates find index test l) : l.Nodup := by
  have hIrrefl := irrefl_rising fun x : ι × α => index x.1
  exact h.rising.nodup

/-- Whatever tells the ids apart, such as their slots, does not stand twice in the answer either. -/
theorem nodup_map {β : Type} {f : ι → β} (h : Enumerates find index test l)
    (hf : Function.Injective f) : (l.map fun x => f x.1).Nodup :=
  List.pairwise_map.mpr (h.rising.imp fun hLess hSame =>
    UInt32.ne_of_lt hLess (congrArg index (hf hSame)))

/-- What the store has and the test lets pass stands in the answer exactly once. -/
theorem count_eq_one [DecidableEq ι] [DecidableEq α] (h : Enumerates find index test l) {id : ι}
    {v : α} (hFind : find id = some v) (hTest : test v) : l.count (id, v) = 1 :=
  List.count_eq_one_of_mem h.nodup ((h.mem id v).mpr ⟨hFind, hTest⟩)

/-- The store and the test leave no choice. -/
theorem unique (h : Enumerates find index test l) (h' : Enumerates find index test l') :
    l = l' := by
  have hIrrefl := irrefl_rising fun x : ι × α => index x.1
  have hAntisymm := antisymm_rising fun x : ι × α => index x.1
  exact h.rising.eq_of_mem_iff h'.rising fun x => (h.mem x.1 x.2).trans (h'.mem x.1 x.2).symm

/-- The answer is empty only if nothing in the store passes the test. -/
theorem eq_nil_iff (h : Enumerates find index test l) :
    l = [] ↔ ∀ id v, find id = some v → ¬test v := by
  rw [List.eq_nil_iff_forall_not_mem]
  constructor
  · intro hNone id v hFind hTest
    exact hNone (id, v) ((h.mem id v).mpr ⟨hFind, hTest⟩)
  · intro hNone x hx
    obtain ⟨hFind, hTest⟩ := (h.mem x.1 x.2).mp hx
    exact hNone x.1 x.2 hFind hTest

/-- The first entry is the one of the lowest index. -/
theorem head?_eq_some_iff (h : Enumerates find index test l) {x : ι × α} :
    l.head? = some x ↔ (find x.1 = some x.2 ∧ test x.2) ∧
      ∀ id v, find id = some v → test v → index x.1 ≤ index id := by
  cases l with
  | nil =>
      simp only [List.head?_nil, reduceCtorEq, false_iff]
      rintro ⟨hx, -⟩
      cases (h.mem x.1 x.2).mpr hx
  | cons head rest =>
      obtain ⟨hHead, -⟩ := List.pairwise_cons.mp h.rising
      rw [List.head?_cons, Option.some.injEq]
      constructor
      · rintro rfl
        refine ⟨(h.mem head.1 head.2).mp (List.mem_cons_self ..), fun id v hFind hTest => ?_⟩
        rcases List.mem_cons.mp ((h.mem id v).mpr ⟨hFind, hTest⟩) with hSame | hLater
        · rw [← hSame]
          exact UInt32.le_refl _
        · exact UInt32.le_of_lt (hHead _ hLater)
      · rintro ⟨hx, hLowest⟩
        obtain ⟨hFind, hTest⟩ := (h.mem head.1 head.2).mp (List.mem_cons_self ..)
        rcases List.mem_cons.mp ((h.mem x.1 x.2).mpr hx) with hSame | hLater
        · exact hSame.symm
        · exact absurd (hHead x hLater) (UInt32.not_lt.mpr (hLowest _ _ hFind hTest))

/-- There is one entry alone when everything that passes has its id. -/
theorem eq_singleton_iff (h : Enumerates find index test l) {x : ι × α} :
    l = [x] ↔ (find x.1 = some x.2 ∧ test x.2) ∧ ∀ id v, find id = some v → test v → id = x.1 := by
  constructor
  · rintro rfl
    refine ⟨(h.mem x.1 x.2).mp (List.mem_singleton_self x), fun id v hFind hTest => ?_⟩
    exact congrArg Prod.fst (List.mem_singleton.mp ((h.mem id v).mpr ⟨hFind, hTest⟩))
  · rintro ⟨hx, hOnly⟩
    refine h.unique ⟨fun id v => ?_, List.pairwise_singleton ..⟩
    rw [List.mem_singleton]
    constructor
    · rintro rfl
      exact hx
    · rintro ⟨hFind, hTest⟩
      cases hOnly id v hFind hTest
      exact Prod.ext rfl (Option.some.inj (hFind.symm.trans hx.1))

end Enumerates

/-- Of what a table lists under ids that stand for its keys, the part that passes a test. -/
theorem Table.enumerates_listed {mk : UInt32 → ι} {find : ι → Option α} {index : ι → UInt32}
    {t : Table UInt32 α} (hIndex : ∀ k, index (mk k) = k)
    (hFind : ∀ {x : ι × α}, x ∈ t.entries.map (fun e => (mk e.1, e.2)) ↔ find x.1 = some x.2)
    (test : α → Bool) : Enumerates find index (fun v => test v = true)
      ((t.entries.map fun e => (mk e.1, e.2)).filter fun x => test x.2) where
  mem id v := by rw [List.mem_filter, hFind]
  rising := by
    refine (List.pairwise_map.mpr (t.sorted.imp fun hLess => ?_)).filter _
    rw [hIndex, hIndex]
    exact Std.compare_eq_lt.mp hLess

theorem BlockGraph.enumerates_edgeList (g : BlockGraph) (test : Edge → Bool) :
    Enumerates g.edge? EdgeId.index (fun e => test e = true)
      (g.edgeList.filter fun x => test x.2) :=
  Table.enumerates_listed (fun _ => rfl) mem_edgeList test

theorem SymbolTable.enumerates_symbolList (t : SymbolTable) (test : Symbol → Bool) :
    Enumerates t.symbol? SymbolId.index (fun s => test s = true)
      (t.symbolList.filter fun x => test x.2) :=
  Table.enumerates_listed (fun _ => rfl) mem_symbolList test

theorem AddressSpace.enumerates_sectionList (s : AddressSpace) (test : Section → Bool) :
    Enumerates s.section? SectionId.index (fun x => test x = true)
      (s.sectionList.filter fun x => test x.2) :=
  Table.enumerates_listed (fun _ => rfl) mem_sectionList test

end Disassembly
