import Disassembly.Table.Lemmas
import Mathlib.Data.List.Sort

/-! What the order of the keys gives: a map holds exactly what is found in it, its last key
bounds all others, and an entry behind all others is the last one of the list. The keys whose
values pass a test are listed in their order, and each change of the map is a small change of
that list. -/
namespace Disassembly.Table

section

variable {κ α β : Type} [Ord κ]

theorem contains_iff {t : Table κ α} {k : κ} : t.contains k = true ↔ ∃ v, t.get? k = some v := by
  rw [contains, Option.isSome_iff_exists]

theorem get?_mapValues_eq_some_iff {t : Table κ α} {f : α → β} {k : κ} {w : β} :
    (t.mapValues f).get? k = some w ↔ ∃ v, t.get? k = some v ∧ f v = w := by
  rw [get?_mapValues, Option.map_eq_some_iff]

/-- A map without a last key is empty. -/
theorem get?_eq_none_of_lastKey? {t : Table κ α} (h : t.lastKey? = none) (k : κ) :
    t.get? k = none := by
  have hNil : t.entries = [] := by simpa [lastKey?, keys] using h
  simp [get?, hNil, lookup]

/-- The keys whose values pass a test, in their order. -/
def keysWhere (t : Table κ α) (test : α → Bool) : List κ :=
  (t.entries.filter fun e => test e.2).map Prod.fst

/-- The keys stay where they are when values are rewritten, so the test can be made beforehand. -/
theorem keysWhere_mapValues (f : α → β) (t : Table κ α) (test : β → Bool) :
    (t.mapValues f).keysWhere test = t.keysWhere fun v => test (f v) := by
  simp only [keysWhere, mapValues, List.filter_map, List.map_map]
  rfl

variable [Std.LawfulEqOrd κ]

/-- In a sorted list a key has one entry, which is the one that is found. -/
theorem lookup_eq_some_iff_mem {k : κ} {v : α} {l : List (κ × α)}
    (h : l.Pairwise fun a b => compare a.1 b.1 = .lt) :
    lookup k l = some v ↔ (k, v) ∈ l := by
  induction l with
  | nil => simp [lookup]
  | cons head rest ih =>
      obtain ⟨k₀, v₀⟩ := head
      obtain ⟨hHead, hRest⟩ := List.pairwise_cons.mp h
      by_cases hk : k₀ = k
      · subst hk
        have hFresh : (k₀, v) ∉ rest := by
          intro hm
          have hSelf := hHead _ hm
          simp [Std.ReflCmp.compare_self] at hSelf
        simp [lookup, Std.ReflCmp.compare_self, hFresh, eq_comm]
      · have hne : compare k₀ k ≠ .eq := fun he => hk (Std.LawfulEqCmp.eq_of_compare he)
        have hk' : k ≠ k₀ := Ne.symm hk
        simp [lookup, hne, ih hRest, hk']

/-- What is found under a key is the entry that has it. -/
theorem get?_eq_some_iff_mem {t : Table κ α} {k : κ} {v : α} :
    t.get? k = some v ↔ (k, v) ∈ t.entries :=
  lookup_eq_some_iff_mem t.sorted

/-- Two maps in which the same is found are the same. -/
theorem ext_get? {s t : Table κ α} [Std.OrientedOrd κ] (h : ∀ k, s.get? k = t.get? k) : s = t := by
  have hMem : ∀ e, e ∈ s.entries ↔ e ∈ t.entries := by
    intro e
    rw [← get?_eq_some_iff_mem, ← get?_eq_some_iff_mem, h]
  have hBelow {a b : κ × α} (hab : compare a.1 b.1 = .lt) : ¬compare b.1 a.1 = .lt :=
    Std.OrientedCmp.not_lt_of_lt hab
  have hIrrefl : Std.Irrefl fun a b : κ × α => compare a.1 b.1 = .lt := ⟨fun a h => hBelow h h⟩
  have hAntisymm : Std.Antisymm fun a b : κ × α => compare a.1 b.1 = .lt :=
    ⟨fun a b hab hba => absurd hba (hBelow hab)⟩
  exact ext_entries (s.sorted.eq_of_mem_iff t.sorted hMem)

theorem mem_values_iff {t : Table κ α} {v : α} : v ∈ t.values ↔ ∃ k, t.get? k = some v := by
  simp [values, get?_eq_some_iff_mem]

/-- What is found after a key is erased is what is found under the other keys. -/
theorem get?_erase_eq_some_iff [DecidableEq κ] {t : Table κ α} {k k' : κ} {v : α} :
    (t.erase k).get? k' = some v ↔ k ≠ k' ∧ t.get? k' = some v := by
  rw [get?_erase]
  by_cases h : k = k' <;> simp [h]

/-- What is found after a value is put in is that value under its key, and what was there under the
others. -/
theorem get?_insert_eq_some_iff [DecidableEq κ] [Std.TransOrd κ] {t : Table κ α} {k k' : κ}
    {v w : α} : (t.insert k v).get? k' = some w ↔
      k = k' ∧ v = w ∨ k ≠ k' ∧ t.get? k' = some w := by
  rw [get?_insert]
  by_cases h : k = k' <;> simp [h]

/-- What is put under a free key can be taken away again. -/
theorem erase_insert [DecidableEq κ] [Std.TransOrd κ] {t : Table κ α} {k : κ} (v : α)
    (h : t.get? k = none) : (t.insert k v).erase k = t := by
  apply ext_get?
  intro k'
  rw [get?_erase, get?_insert]
  by_cases hKey : k = k'
  · simp [← hKey, h]
  · simp [hKey]

/-- A key is listed if it has a value that passes the test. -/
theorem mem_keysWhere {t : Table κ α} {test : α → Bool} {k : κ} :
    k ∈ t.keysWhere test ↔ ∃ v, t.get? k = some v ∧ test v = true := by
  simp [keysWhere, get?_eq_some_iff_mem]

/-- No key lies behind the last one. -/
theorem le_lastKey? {t : Table κ α} {last k : κ} {v : α} (h : t.lastKey? = some last)
    (hk : t.get? k = some v) : k = last ∨ compare k last = .lt := by
  rw [get?_eq_some_iff_mem] at hk
  obtain ⟨front, hKeys⟩ := List.getLast?_eq_some_iff.mp h
  have hSorted : t.keys.Pairwise fun a b => compare a b = .lt :=
    List.pairwise_map.mpr t.sorted
  have hMem : k ∈ t.keys := List.mem_map.mpr ⟨(k, v), hk, rfl⟩
  rw [hKeys] at hSorted hMem
  rcases List.mem_append.mp hMem with hFront | hLast
  · exact .inr ((List.pairwise_append.mp hSorted).2.2 k hFront last (List.mem_singleton_self _))
  · exact .inl (List.mem_singleton.mp hLast)

theorem exists_get?_lastKey? {t : Table κ α} {last : κ} (h : t.lastKey? = some last) :
    ∃ v, t.get? last = some v := by
  have hMem : last ∈ t.keys := List.mem_of_getLast? h
  obtain ⟨⟨k, v⟩, hm, rfl⟩ := List.mem_map.mp hMem
  exact ⟨v, get?_eq_some_iff_mem.mpr hm⟩

/-- An entry whose key is behind all keys of the map becomes the last entry. -/
theorem entries_insert_of_last [Std.TransOrd κ] {t : Table κ α} {k : κ} (v : α)
    (h : ∀ k' v', t.get? k' = some v' → compare k' k = .lt) :
    (t.insert k v).entries = t.entries ++ [(k, v)] :=
  insertEntry_of_last fun e he => h e.1 e.2 (get?_eq_some_iff_mem.mpr he)

end

section

variable {α : Type}

/-- A bound on the last index is a bound on all of them. -/
theorem lastKey?_lt_iff {t : Table UInt32 α} {next : UInt32} :
    (∀ last, t.lastKey? = some last → last < next) ↔
      ∀ k v, t.get? k = some v → k < next := by
  constructor
  · intro h k v hk
    cases hLast : t.lastKey? with
    | none => simp [get?_eq_none_of_lastKey? hLast] at hk
    | some last =>
        rcases le_lastKey? hLast hk with rfl | hlt
        · exact h k hLast
        · exact UInt32.lt_trans (Std.compare_eq_lt.mp hlt) (h last hLast)
  · intro h last hLast
    obtain ⟨v, hv⟩ := exists_get?_lastKey? hLast
    exact h last v hv

/-- A value put under the counter stays below the counter that moved on. -/
theorem bound_insert {t : Table UInt32 α} {next later : UInt32} {v : α}
    (h : ∀ k v, t.get? k = some v → k < next) (hLater : next < later) :
    ∀ k w, (t.insert next v).get? k = some w → k < later := by
  intro k w hk
  rcases get?_insert_eq_some_iff.mp hk with ⟨rfl, -⟩ | ⟨-, hOld⟩
  · exact hLater
  · exact UInt32.lt_trans (h k w hOld) hLater

/-- A key that is taken out leaves the bound of the others. -/
theorem bound_erase {t : Table UInt32 α} {next k : UInt32}
    (h : ∀ k v, t.get? k = some v → k < next) :
    ∀ k' v, (t.erase k).get? k' = some v → k' < next :=
  fun k' v hk => h k' v (get?_erase_eq_some_iff.mp hk).2

/-- A value under the counter comes last. -/
theorem entries_insert_of_bound {t : Table UInt32 α} {next : UInt32} (v : α)
    (h : ∀ k v, t.get? k = some v → k < next) :
    (t.insert next v).entries = t.entries ++ [(next, v)] :=
  entries_insert_of_last v fun k v' hk => Std.compare_eq_lt.mpr (h k v' hk)

/-- A value under the counter is listed last, if it is listed. -/
theorem keysWhere_insert_of_bound {t : Table UInt32 α} {next : UInt32} (v : α)
    (h : ∀ k v, t.get? k = some v → k < next) (test : α → Bool) :
    (t.insert next v).keysWhere test =
      if test v then t.keysWhere test ++ [next] else t.keysWhere test := by
  unfold keysWhere
  rw [entries_insert_of_bound v h]
  cases hTest : test v <;> simp [hTest]

theorem entries_erase (t : Table UInt32 α) (k : UInt32) :
    (t.erase k).entries = t.entries.filter fun e => e.1 ≠ k := by
  change (t.entries.filter fun e => compare e.1 k != .eq) = _
  congr 1
  funext e
  by_cases h : e.1 = k <;> simp [h, Std.LawfulEqCmp.compare_eq_iff_eq]

/-- A key that is taken out of the map is taken off the list. -/
theorem keysWhere_erase (t : Table UInt32 α) (k : UInt32) (test : α → Bool) :
    (t.erase k).keysWhere test = (t.keysWhere test).filter (· ≠ k) := by
  unfold keysWhere
  rw [entries_erase, List.filter_map, List.filter_filter, List.filter_filter]
  congr 1
  apply List.filter_congr
  intro e _
  exact Bool.and_comm _ _

/-- A key whose value fails the test was not listed in the first place. -/
theorem keysWhere_erase_of_false {t : Table UInt32 α} {k : UInt32} {v : α} {test : α → Bool}
    (hv : t.get? k = some v) (hTest : test v = false) :
    (t.erase k).keysWhere test = t.keysWhere test := by
  rw [keysWhere_erase]
  apply List.filter_eq_self.mpr
  intro k' hm
  obtain ⟨w, hw, hPass⟩ := mem_keysWhere.mp hm
  have hne : k' ≠ k := by
    rintro rfl
    rw [hv] at hw
    cases hw
    simp [hTest] at hPass
  simpa using hne

end

end Disassembly.Table
