import Disassembly.Json.Form
import Disassembly.Proofs.Parsing
import Disassembly.Table.Lemmas

/-! What is written as a document is read back. A form is faithful when its writer gives a
value that can be written down as it is, and its reader gives back what was written without
what the writer left out. Every combinator keeps this. -/
namespace Disassembly.Json

section Lists

variable {α β γ : Type}

/-- If each item is read as what it stands for, then so are all of them. -/
theorem mapM_map_eq_some {f : β → Option γ} {g : α → β} {k : α → γ} {l : List α}
    (h : ∀ a ∈ l, f (g a) = some (k a)) : (l.map g).mapM f = some (l.map k) := by
  induction l with
  | nil => rfl
  | cons a rest ih =>
      have hRest := ih fun b hb => h b (List.mem_cons_of_mem _ hb)
      rw [List.map_cons, List.mapM_cons, h a (List.mem_cons_self ..), hRest]
      rfl

/-- Of entries with distinct keys only one has the key of a given one. -/
theorem filter_key_eq_singleton [DecidableEq β] {l : List (β × γ)}
    (h : l.Pairwise fun d e => d.1 ≠ e.1) {e : β × γ} (he : e ∈ l) :
    l.filter (fun d => d.1 = e.1) = [e] := by
  induction l with
  | nil => cases he
  | cons d rest ih =>
      obtain ⟨hFirst, hRest⟩ := List.pairwise_cons.mp h
      rcases List.mem_cons.mp he with rfl | he
      · have hNone : rest.filter (fun d => d.1 = e.1) = [] := by
          rw [List.filter_eq_nil_iff]
          intro d hd
          simpa using (hFirst d hd).symm
        simp [hNone]
      · simp [hFirst e he, ih hRest he]

end Lists

/-- Every value can be written as it is, and comes back as `keep` makes it. -/
structure Form.Faithful {α : Type} (f : Form α) (keep : α → α) : Prop where
  spelled : ∀ a, Spelled (f.write a)
  reads : ∀ a, f.read (f.write a) = some (keep a)

/-- Every key can stand between quotes, and comes back. -/
structure KeyForm.Faithful {κ : Type} (k : KeyForm κ) : Prop where
  quotable : ∀ key, Token.Quotable (k.write key)
  reads : ∀ key, k.read (k.write key) = some key

/-- There is a value for each field, and the values of all fields come back together. -/
structure Record.Faithful {α : Type} (r : Record α) (keep : α → α) : Prop where
  length_write : ∀ a, (r.write a).length = r.names.length
  spelled : ∀ a, ∀ v ∈ r.write a, Spelled v
  reads : ∀ a, r.read ((r.write a).map some) = some (keep a)

namespace Form

variable {α β : Type}

/-- A form that is used for another type stays faithful, and leaves out what it left out before. -/
theorem Faithful.as {f : Form α} {keep : α → α} {keep' : β → β} {make : α → β} {view : β → α}
    (h : f.Faithful keep) (hMake : ∀ b, make (keep (view b)) = keep' b) :
    (f.as make view).Faithful keep' where
  spelled b := h.spelled (view b)
  reads b := by
    change (f.read (f.write (view b))).map make = _
    rw [h.reads, Option.map_some, hMake]

/-- A reader may refuse what the form would read, as long as it accepts what the writer gives. -/
theorem Faithful.restrict {f : Form α} {make? : α → Option β} {view : β → α}
    (h : f.Faithful id) (hMake : ∀ b, make? (view b) = some b) :
    (f.restrict make? view).Faithful id where
  spelled b := h.spelled (view b)
  reads b := by
    change (f.read (f.write (view b))).bind make? = _
    rw [h.reads]
    exact hMake b

theorem faithful_bool : bool.Faithful id where
  spelled b := .bool b
  reads _ := rfl

/-- Texts of all kinds come back: what has to be escaped is escaped. -/
theorem faithful_text : text.Faithful id where
  spelled s := .string (Token.quotable_escape s.toList)
  reads s := by
    change (unescape? (escape s.toList)).map String.ofList = _
    rw [unescape?_escape, Option.map_some, String.ofList_toList]
    rfl

/-- Numbers below a bound stand for values that they are counted from. -/
theorem faithful_number {bound : Nat} {make : Nat → β} {view : β → Nat}
    (hBound : ∀ b, view b < bound) (hMake : ∀ b, make (view b) = b) :
    ((nat bound).as make view).Faithful id where
  spelled b := .number (numeral_decimal (view b))
  reads b := by
    change ((nat? (decimal (view b))).bind fun n => if n < bound then some n else none).map make = _
    rw [nat?_decimal, Option.bind_some, if_pos (hBound b), Option.map_some, hMake]
    rfl

theorem faithful_byte : byte.Faithful id :=
  faithful_number UInt8.toNat_lt fun _ => UInt8.ofNat_toNat

theorem faithful_word32 : word32.Faithful id :=
  faithful_number UInt32.toNat_lt fun _ => UInt32.ofNat_toNat

theorem faithful_word64 : word64.Faithful id :=
  faithful_number UInt64.toNat_lt fun _ => UInt64.ofNat_toNat

/-- What is written of a number with a sign denotes it. -/
theorem int?_signed (v : Int) :
    int? (if v < 0 then '-' :: decimal v.natAbs else decimal v.natAbs) = some v := by
  by_cases hNegative : v < 0
  · rw [if_pos hNegative, int?_neg_decimal (by omega)]
    congr
    omega
  · rw [if_neg hNegative, int?_decimal]
    congr
    omega

/-- Every signed number is in the range that the reader admits, the smallest included. -/
theorem faithful_int64 : int64.Faithful id where
  spelled v := by
    apply Spelled.number
    split
    · exact numeral_neg_decimal _
    · exact numeral_decimal _
  reads v := by
    have hRange : Int64.minValue.toInt ≤ v.toInt ∧ v.toInt ≤ Int64.maxValue.toInt :=
      ⟨Int64.minValue_le_toInt v, Int64.toInt_le v⟩
    change (int? _).bind _ = _
    rw [int?_signed, Option.bind_some, if_pos hRange, Int64.ofInt_toInt]
    rfl

/-- A document other than `null` is read as a value that is present. -/
theorem read_option {f : Form α} {v : Json} (h : v ≠ .null) :
    f.option.read v = (f.read v).map some := by
  cases v with
  | null => exact absurd rfl h
  | _ => rfl

/-- An absent value is told from a present one if none of these is written as nothing. -/
theorem Faithful.option {f : Form α} (h : f.Faithful id) (hNull : ∀ a, f.write a ≠ .null) :
    f.option.Faithful id where
  spelled
    | none => .null
    | some a => h.spelled a
  reads o := by
    cases o with
    | none => rfl
    | some a =>
        have hPresent : f.option.read (f.write a) = (f.read (f.write a)).map some :=
          read_option (hNull a)
        change f.option.read (f.write a) = _
        rw [hPresent, h.reads]
        rfl

/-- The values of a list come back one by one, in their order. -/
theorem Faithful.list {f : Form α} {keep : α → α} (h : f.Faithful keep) :
    f.list.Faithful (List.map keep) where
  spelled l := by
    apply Spelled.array
    intro v hv
    obtain ⟨a, -, rfl⟩ := List.mem_map.mp hv
    exact h.spelled a
  reads l := mapM_map_eq_some fun a _ => h.reads a

/-- Values with different names are told apart by their names. -/
theorem faithful_enumeration {all : List α} {name : α → String} (hAll : ∀ a, a ∈ all)
    (hName : ∀ a b, name a = name b → a = b) : (enumeration all name).Faithful id where
  spelled a := .string (Token.quotable_escape _)
  reads a := by
    have hFind : all.find? (fun b => (name b).toList = (name a).toList) = some a := by
      cases hFound : all.find? (fun b => (name b).toList = (name a).toList) with
      | none => simpa using List.find?_eq_none.mp hFound a (hAll a)
      | some b =>
          have hSame : (name b).toList = (name a).toList := by simpa using List.find?_some hFound
          rw [hName b a (String.toList_injective hSame)]
    have hWritten : alternative? ((enumeration all name).write a) =
        some ((name a).toList, none) := by
      change (unescape? (escape (name a).toList)).map _ = _
      rw [unescape?_escape]
      rfl
    unfold enumeration at hWritten ⊢
    simp only [hWritten]
    exact hFind

/-- Each field is found under its name, if no other field has that name. -/
theorem fields?_object {names : List String} {values : List Json} (h : names.Nodup)
    (hLength : values.length = names.length) (short : Bool) :
    fields? names short (.object ((names.map fun n => escape n.toList).zip values)) =
      some (values.map some) := by
  have hNames : (names.zip values).map Prod.fst = names := List.map_fst_zip (by omega)
  have hValues : (names.zip values).map Prod.snd = values := List.map_snd_zip (by omega)
  have hUnescape : ((names.map fun n => escape n.toList).zip values).mapM
      (fun m => (unescape? m.1).map fun name => (name, m.2)) =
        some ((names.zip values).map fun e => (e.1.toList, e.2)) := by
    rw [List.zip_map_left]
    refine mapM_map_eq_some fun e _ => ?_
    simp [unescape?_escape]
  have hDistinct : ((names.zip values).map fun e => (e.1.toList, e.2)).Pairwise
      fun d e => d.1 ≠ e.1 := by
    rw [← hNames, List.nodup_iff_pairwise_ne, List.pairwise_map] at h
    refine List.pairwise_map.mpr (h.imp ?_)
    intro d e hne hSame
    exact hne (String.toList_injective hSame)
  have hFields : ((names.zip values).map Prod.fst).mapM
      (member? ((names.zip values).map fun e => (e.1.toList, e.2))) =
        some ((names.zip values).map (some ∘ Prod.snd)) := by
    refine mapM_map_eq_some fun e he => ?_
    have hOne := filter_key_eq_singleton hDistinct (List.mem_map_of_mem he)
    rw [member?, hOne]
    rfl
  rw [hNames, ← List.map_map, hValues] at hFields
  refine (congrArg (Option.bind · fun members => names.mapM (member? members)) hUnescape).trans ?_
  exact hFields

end Form

namespace KeyForm

/-- As keys, texts are escaped in the same way. -/
theorem faithful_text : text.Faithful where
  quotable s := Token.quotable_escape s.toList
  reads s := by
    change (unescape? (escape s.toList)).map String.ofList = _
    rw [unescape?_escape, Option.map_some, String.ofList_toList]

/-- There is nothing in a number that could end it early between quotes. -/
theorem quotable_decimal (n : Nat) : Token.Quotable (decimal n) := by
  refine Token.quotable_of_plain fun c hc => ?_
  have hDigit := isDigit_of_mem_decimal hc
  refine ⟨?_, ?_, ?_⟩
  · rintro rfl
    cases hDigit
  · rintro rfl
    cases hDigit
  · simp only [Char.isDigit, Bool.and_eq_true, decide_eq_true_eq] at hDigit
    have hLow : 48 ≤ c.toNat := hDigit.1
    omega

/-- As keys, indices are written in digits between quotes. -/
theorem faithful_index : index.Faithful where
  quotable n := quotable_decimal n.toNat
  reads n := by
    change (nat? (decimal n.toNat)).bind _ = _
    rw [nat?_decimal, Option.bind_some, if_pos n.toNat_lt, UInt32.ofNat_toNat]

/-- The entries come back in key order, so they make the map that they were taken from. -/
theorem Faithful.table {κ α : Type} [Ord κ] [Std.TransOrd κ] [Std.LawfulEqOrd κ]
    {k : KeyForm κ} {f : Form α} (hk : k.Faithful) (hf : f.Faithful id) :
    (Form.table k f).Faithful id where
  spelled t := by
    apply Spelled.object
    · intro m hm
      obtain ⟨e, -, rfl⟩ := List.mem_map.mp hm
      exact hk.quotable e.1
    · intro m hm
      obtain ⟨e, -, rfl⟩ := List.mem_map.mp hm
      exact hf.spelled e.2
  reads t := by
    have hEntries : (t.entries.map fun e => (k.write e.1, f.write e.2)).mapM
        (fun m => do return (← k.read m.1, ← f.read m.2)) = some (t.entries.map id) := by
      refine mapM_map_eq_some fun e _ => ?_
      simp [hk.reads, hf.reads]
    refine (congrArg (Option.map Table.ofList) hEntries).trans ?_
    rw [List.map_id, Option.map_some, Table.ofList_entries]
    rfl

end KeyForm

section Records

variable {α β : Type}

/-- One field is a record of its own. It does not matter what is taken when the field is absent,
since the writer never leaves it out. -/
theorem Form.Faithful.field {f : Form α} {keep : α → α} (h : f.Faithful keep) {name : String}
    {absent : Option α} : (Record.field name f absent).Faithful keep where
  length_write _ := rfl
  spelled a v hv := by
    rw [List.mem_singleton.mp hv]
    exact h.spelled a
  reads a := h.reads a

/-- The fields of two records follow one another, and each half is read by its own record. -/
theorem Record.Faithful.and {r : Record α} {s : Record β} {keep : α → α} {keep' : β → β}
    (hr : r.Faithful keep) (hs : s.Faithful keep') :
    (r.and s).Faithful fun ab => (keep ab.1, keep' ab.2) where
  length_write ab := by
    change (r.write ab.1 ++ s.write ab.2).length = (r.names ++ s.names).length
    rw [List.length_append, List.length_append, hr.length_write, hs.length_write]
  spelled ab v hv := by
    rcases List.mem_append.mp hv with hFirst | hSecond
    · exact hr.spelled ab.1 v hFirst
    · exact hs.spelled ab.2 v hSecond
  reads ab := by
    have hLength : ((r.write ab.1).map some).length = r.names.length := by
      rw [List.length_map, hr.length_write]
    simp only [Record.and, List.map_append]
    rw [← hLength, List.take_left, List.drop_left, hr.reads, hs.reads]
    rfl

/-- The values of the fields come back under their names. -/
theorem Record.Faithful.record {r : Record α} {keep : α → α} (h : r.Faithful keep)
    (hNames : r.names.Nodup) {short : Bool} : (Form.record r short).Faithful keep where
  spelled a := by
    apply Spelled.object
    · intro m hm
      obtain ⟨n, -, hn⟩ := List.mem_map.mp (List.of_mem_zip hm).1
      exact hn ▸ Token.quotable_escape n.toList
    · intro m hm
      exact h.spelled a m.2 (List.of_mem_zip hm).2
  reads a := by
    change (fields? r.names short (.object _)).bind r.read = _
    rw [Form.fields?_object hNames (h.length_write a)]
    exact h.reads a

end Records

end Disassembly.Json
