/-! Finite maps held as lists of entries in strictly increasing key order. The order is
part of the type, so two maps with the same entries are the same value, and a list of
entries read back from storage says nothing about the order in which they were put in. -/
namespace Disassembly

/-- A finite map from `κ` to `α`. Each key stands once, and keys increase. -/
structure Table (κ α : Type) [Ord κ] where
  entries : List (κ × α)
  sorted : entries.Pairwise fun a b => compare a.1 b.1 = .lt
deriving DecidableEq

namespace Table

variable {κ α β : Type} [Ord κ]

def empty : Table κ α := ⟨[], .nil⟩

instance : EmptyCollection (Table κ α) := ⟨empty⟩

instance : Inhabited (Table κ α) := ⟨empty⟩

def size (t : Table κ α) : Nat := t.entries.length

def isEmpty (t : Table κ α) : Bool := t.entries.isEmpty

def keys (t : Table κ α) : List κ := t.entries.map Prod.fst

def values (t : Table κ α) : List α := t.entries.map Prod.snd

/-- The largest key, if there is one. -/
def lastKey? (t : Table κ α) : Option κ := t.keys.getLast?

/-- The value under `k` in a list of entries, whatever its order. -/
def lookup (k : κ) : List (κ × α) → Option α
  | [] => none
  | (k', v) :: rest => if compare k' k = .eq then some v else lookup k rest

def get? (t : Table κ α) (k : κ) : Option α := lookup k t.entries

def contains (t : Table κ α) (k : κ) : Bool := (t.get? k).isSome

/-- Puts an entry at its place. An entry that has the key already is replaced. -/
def insertEntry (k : κ) (v : α) : List (κ × α) → List (κ × α)
  | [] => [(k, v)]
  | (k', v') :: rest =>
    match compare k k' with
    | .lt => (k, v) :: (k', v') :: rest
    | .eq => (k, v) :: rest
    | .gt => (k', v') :: insertEntry k v rest

theorem mem_insertEntry {k : κ} {v : α} {e : κ × α} {l : List (κ × α)}
    (h : e ∈ insertEntry k v l) : e = (k, v) ∨ e ∈ l := by
  induction l with
  | nil => simpa [insertEntry] using h
  | cons head rest ih =>
    obtain ⟨k', v'⟩ := head
    rw [insertEntry] at h
    split at h <;> simp only [List.mem_cons] at h ⊢
    · exact h
    · rcases h with h | h
      · exact .inl h
      · exact .inr (.inr h)
    · rcases h with h | h
      · exact .inr (.inl h)
      · exact (ih h).imp id .inr

/-- The map without the key `k`. -/
def erase (t : Table κ α) (k : κ) : Table κ α :=
  ⟨t.entries.filter fun e => compare e.1 k != .eq, t.sorted.filter _⟩

/-- Applies `f` to each value and keeps the keys. -/
def mapValues (f : α → β) (t : Table κ α) : Table κ β :=
  ⟨t.entries.map fun e => (e.1, f e.2), List.pairwise_map.mpr t.sorted⟩

variable [Std.TransOrd κ] [Std.LawfulEqOrd κ]

theorem sorted_insertEntry (k : κ) (v : α) {l : List (κ × α)}
    (h : l.Pairwise fun a b => compare a.1 b.1 = .lt) :
    (insertEntry k v l).Pairwise fun a b => compare a.1 b.1 = .lt := by
  induction l with
  | nil => simp [insertEntry]
  | cons head rest ih =>
    obtain ⟨k', v'⟩ := head
    obtain ⟨hHead, hRest⟩ := List.pairwise_cons.mp h
    rw [insertEntry]
    split
    · rename_i hk
      refine List.pairwise_cons.mpr ⟨fun e he => ?_, h⟩
      rcases List.mem_cons.mp he with rfl | he
      · exact hk
      · exact Std.TransCmp.lt_trans hk (hHead e he)
    · rename_i hk
      cases Std.LawfulEqCmp.eq_of_compare hk
      exact List.pairwise_cons.mpr ⟨hHead, hRest⟩
    · rename_i hk
      refine List.pairwise_cons.mpr ⟨fun e he => ?_, ih hRest⟩
      rcases mem_insertEntry he with rfl | he
      · exact Std.OrientedCmp.lt_of_gt hk
      · exact hHead e he

def insert (t : Table κ α) (k : κ) (v : α) : Table κ α :=
  ⟨insertEntry k v t.entries, sorted_insertEntry k v t.sorted⟩

/-- The map with the given entries. Of two entries with one key the later counts. -/
def ofList (l : List (κ × α)) : Table κ α :=
  l.foldl (fun t e => t.insert e.1 e.2) empty

end Table

end Disassembly
