import Disassembly.Table

/-! Each operation on a finite map, told by what is found under each key, and the fact that
makes storage faithful: the entries of a map, put into an empty one in their order, give the
map again. -/
namespace Disassembly.Table

section

variable {κ α β : Type} [Ord κ]

theorem ext_entries {s t : Table κ α} (h : s.entries = t.entries) : s = t := by
  cases s
  cases t
  cases h
  rfl

@[simp] theorem get?_empty (k : κ) : (∅ : Table κ α).get? k = none := rfl

theorem get?_mapValues (f : α → β) (t : Table κ α) (k : κ) :
    (t.mapValues f).get? k = (t.get? k).map f := by
  obtain ⟨l, hl⟩ := t
  simp only [get?, mapValues]
  clear hl
  induction l with
  | nil => rfl
  | cons head rest ih =>
    by_cases h : compare head.1 k = .eq <;> simp [lookup, h, ih]

end

section

variable {κ α : Type} [Ord κ] [Std.LawfulEqOrd κ] [DecidableEq κ]

theorem get?_erase (t : Table κ α) (k k' : κ) :
    (t.erase k).get? k' = if k = k' then none else t.get? k' := by
  obtain ⟨l, hl⟩ := t
  simp only [get?, erase]
  clear hl
  induction l with
  | nil => simp [lookup]
  | cons head rest ih =>
    obtain ⟨k₀, v₀⟩ := head
    by_cases h₀ : k₀ = k <;> by_cases he : k = k' <;>
      simp_all [lookup, Std.LawfulEqCmp.compare_eq_iff_eq]

theorem lookup_insertEntry (k k' : κ) (v : α) (l : List (κ × α)) :
    lookup k' (insertEntry k v l) = if k = k' then some v else lookup k' l := by
  induction l with
  | nil => simp [insertEntry, lookup, Std.LawfulEqCmp.compare_eq_iff_eq]
  | cons head rest ih =>
    obtain ⟨k₀, v₀⟩ := head
    rw [insertEntry]
    split <;> rename_i hk
    · simp [lookup, Std.LawfulEqCmp.compare_eq_iff_eq]
    · cases Std.LawfulEqCmp.eq_of_compare hk
      by_cases he : k = k' <;> simp [lookup, Std.LawfulEqCmp.compare_eq_iff_eq, he]
    · have hne : k ≠ k₀ := by
        rintro rfl
        simp [Std.ReflCmp.compare_self] at hk
      by_cases he : k = k'
      · subst he
        simp [lookup, ih, Std.LawfulEqCmp.compare_eq_iff_eq, hne.symm]
      · by_cases h₀ : k₀ = k' <;> simp_all [lookup, Std.LawfulEqCmp.compare_eq_iff_eq]

theorem get?_insert [Std.TransOrd κ] (t : Table κ α) (k k' : κ) (v : α) :
    (t.insert k v).get? k' = if k = k' then some v else t.get? k' :=
  lookup_insertEntry k k' v t.entries

end

section

variable {κ α : Type} [Ord κ] [Std.TransOrd κ]

/-- An entry whose key is behind all others goes to the end. -/
theorem insertEntry_of_last {k : κ} {v : α} {l : List (κ × α)}
    (h : ∀ e ∈ l, compare e.1 k = .lt) : insertEntry k v l = l ++ [(k, v)] := by
  induction l with
  | nil => rfl
  | cons head rest ih =>
    obtain ⟨k₀, v₀⟩ := head
    have hk : compare k k₀ = .gt := Std.OrientedCmp.gt_of_lt (h _ (List.mem_cons_self ..))
    simp [insertEntry, hk, ih fun e he => h e (List.mem_cons_of_mem _ he)]

variable [Std.LawfulEqOrd κ]

theorem entries_foldl_insert (rest : List (κ × α)) (t : Table κ α)
    (h : (t.entries ++ rest).Pairwise fun a b => compare a.1 b.1 = .lt) :
    (rest.foldl (fun t e => t.insert e.1 e.2) t).entries = t.entries ++ rest := by
  induction rest generalizing t with
  | nil => simp
  | cons head rest ih =>
    have hLast : ∀ e ∈ t.entries, compare e.1 head.1 = .lt := fun e he =>
      (List.pairwise_append.mp h).2.2 e he head (List.mem_cons_self ..)
    have hNext : (t.insert head.1 head.2).entries = t.entries ++ [head] :=
      insertEntry_of_last hLast
    have := ih (t.insert head.1 head.2) (by simpa [hNext] using h)
    simpa [hNext] using this

/-- A map written as its entries is read back as itself. -/
@[simp] theorem ofList_entries (t : Table κ α) : ofList t.entries = t :=
  ext_entries (entries_foldl_insert t.entries empty t.sorted)

end

end Disassembly.Table
