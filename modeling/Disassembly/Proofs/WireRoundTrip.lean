import Disassembly.Proofs.Reading
import Disassembly.Table.Lemmas
import Disassembly.Wire.Model

/-! What is written is read back. A form is faithful when its reader takes exactly what its
writer gave, claims at most eight bytes of memory for each byte of it, and yields the value
without what the writer left out. Every combinator keeps this, so every form of the model has
it by construction. -/
namespace Disassembly

namespace Wire

variable {α β : Type}

/-- Every value comes back as `keep` makes it. Lengths must fit into the words in which they
are written, which they do if the whole does. -/
structure Faithful (w : Wire α) (keep : α → α) : Prop where
  nonempty : ∀ a, w.write a ≠ []
  reads : ∀ a, (w.write a).length < UInt64.size →
    ∃ cost, cost ≤ 8 * (w.write a).length ∧ w.read.Yields (w.write a) cost (keep a)

theorem length_pos_of_ne_nil {bytes : List UInt8} (h : bytes ≠ []) : 1 ≤ bytes.length :=
  List.length_pos_iff.mpr h

/-- A form that is used for another type stays faithful, and leaves out what it left out before. -/
theorem Faithful.as {w : Wire α} {keep : α → α} {keep' : β → β} {make : α → β} {view : β → α}
    (h : w.Faithful keep) (hMake : ∀ b, make (keep (view b)) = keep' b) :
    (w.as make view).Faithful keep' where
  nonempty b := h.nonempty (view b)
  reads b hLength := by
    obtain ⟨cost, hCost, hReads⟩ := h.reads (view b) hLength
    exact ⟨cost, hCost, hMake b ▸ hReads.map make⟩

/-- A form of which the reader refuses some values stays faithful if it accepts all that are
written. -/
theorem Faithful.restrict {w : Wire α} {make? : α → Option β} {view : β → α}
    (h : w.Faithful id) (hMake : ∀ b, make? (view b) = some b) :
    (w.restrict make? view).Faithful id where
  nonempty b := h.nonempty (view b)
  reads b hLength := by
    obtain ⟨cost, hCost, hReads⟩ := h.reads (view b) hLength
    exact ⟨cost, hCost, hReads.followed (Reader.yields_lift (hMake b))⟩

/-- Two forms in a row are faithful if both are, and their costs add up. -/
theorem Faithful.pair {w : Wire α} {v : Wire β} {keep : α → α} {keep' : β → β}
    (hw : w.Faithful keep) (hv : v.Faithful keep') :
    (w.pair v).Faithful fun ab => (keep ab.1, keep' ab.2) where
  nonempty ab h := hw.nonempty ab.1 (List.append_eq_nil_iff.mp h).1
  reads ab hLength := by
    have hSplit : ((w.pair v).write ab).length = (w.write ab.1).length + (v.write ab.2).length :=
      List.length_append
    obtain ⟨cost, hCost, hFirst⟩ := hw.reads ab.1 (by omega)
    obtain ⟨cost', hCost', hSecond⟩ := hv.reads ab.2 (by omega)
    refine ⟨cost + cost', by omega, ?_⟩
    exact hFirst.bind (hSecond.map (Prod.mk (keep ab.1)))

/-- A number that is written in as few bytes as it needs costs no more than a word. -/
theorem exists_yields_number (wide : Bool) {claimed n : Nat} (make : Nat → α)
    (hClaimed : claimed ≤ 8) (h : n < UInt64.size) (hWide : wide = false → n < UInt32.size) :
    ∃ cost, cost ≤ 8 * (writeVarint n).length ∧
      Reader.Yields (do Reader.claim claimed; return make (← readVarint wide)) (writeVarint n)
        cost (make n) := by
  have hWritten := length_pos_of_ne_nil (writeVarint_ne_nil n)
  exact ⟨claimed + 0, by omega, ((yields_readVarint wide h hWide).map make).claimed claimed⟩

/-- Every narrow number comes back. It is written in at most five bytes and claims four. -/
theorem faithful_word32 : word32.Faithful id where
  nonempty n := writeVarint_ne_nil n.toNat
  reads n _ := by
    have hSmall : n.toNat < UInt32.size := n.toNat_lt
    have hReads := exists_yields_number false UInt32.ofNat (by decide : 4 ≤ 8)
      (Nat.lt_trans hSmall (by decide)) fun _ => hSmall
    rwa [UInt32.ofNat_toNat] at hReads

theorem faithful_word64 : word64.Faithful id where
  nonempty n := writeVarint_ne_nil n.toNat
  reads n _ := by
    have hReads := exists_yields_number true UInt64.ofNat (Nat.le_refl 8) n.toNat_lt nofun
    rwa [UInt64.ofNat_toNat] at hReads

/-- Every signed number comes back from the number without a sign that stands for it. -/
theorem faithful_int64 : int64.Faithful id where
  nonempty v := writeVarint_ne_nil (zigzag v.toInt)
  reads v _ := by
    have hReads := exists_yields_number true (fun n => Int64.ofInt (unzigzag n)) (Nat.le_refl 8)
      (zigzag_lt v) nofun
    rwa [unzigzag_zigzag, Int64.ofInt_toInt] at hReads

/-- A length is read back if it is one that can be written. -/
theorem yields_length {n : Nat} (h : n < UInt64.size) :
    length.read.Yields (length.write n) 8 n :=
  (yields_readVarint true h nofun).claimed 8

/-- A flag is one byte, and claims one. -/
theorem yields_bool (b : Bool) : bool.read.Yields (bool.write b) (1 + 0) b := by
  apply Reader.Yields.claimed 1
  cases b with
  | false =>
      refine Reader.yields_byte_bind ?_
      exact Reader.yields_pure false
  | true =>
      refine Reader.yields_byte_bind ?_
      exact Reader.yields_pure true

theorem faithful_bool : bool.Faithful id where
  nonempty b := List.cons_ne_nil _ _
  reads b _ := ⟨1, by simp [bool], yields_bool b⟩

/-- A value that may be missing comes back with whether it is there. -/
theorem Faithful.option {w : Wire α} (h : w.Faithful id) : w.option.Faithful id where
  nonempty
    | none => List.cons_ne_nil _ _
    | some a => List.cons_ne_nil _ _
  reads o hLength := by
    cases o with
    | none =>
        refine ⟨1 + 0, Nat.le_add_left 1 7, (yields_bool false).followed ?_⟩
        exact Reader.yields_pure none
    | some a =>
        have hSplit : (w.option.write (some a)).length = (w.write a).length + 1 := rfl
        obtain ⟨cost, hCost, hReads⟩ := h.reads a (by omega)
        refine ⟨1 + 0 + cost, by omega, (yields_bool true).bind ?_⟩
        exact hReads.map some

/-- As many values as were written are read one after the other, and each pays for itself. By
induction on the list, behind those that have been read. -/
theorem yields_many {item : Reader α} {write : α → List UInt8} {keep : α → α} (l : List α)
    (h : ∀ a ∈ l, ∃ cost, cost ≤ 8 * (write a).length ∧ item.Yields (write a) cost (keep a))
    (done : List α) :
    ∃ cost, cost ≤ 8 * (l.flatMap write).length ∧
      (item.many l.length done).Yields (l.flatMap write) cost (done.reverse ++ l.map keep) := by
  induction l generalizing done with
  | nil =>
      refine ⟨0, by simp, ?_⟩
      rw [List.map_nil, List.append_nil]
      exact Reader.yields_pure done.reverse
  | cons a rest ih =>
      obtain ⟨cost, hCost, hFirst⟩ := h a (List.mem_cons_self ..)
      obtain ⟨cost', hCost', hRest⟩ :=
        ih (fun b hb => h b (List.mem_cons_of_mem _ hb)) (keep a :: done)
      refine ⟨cost + cost', ?_, ?_⟩
      · rw [List.flatMap_cons, List.length_append]
        omega
      · rw [List.reverse_cons, List.append_assoc] at hRest
        exact hFirst.bind hRest

/-- Since no value is written in nothing, a list takes at least as many bytes as it has values. So
its length can be written if the list can. -/
theorem length_le_length_flatMap {write : α → List UInt8} (h : ∀ a, write a ≠ []) (l : List α) :
    l.length ≤ (l.flatMap write).length := by
  induction l with
  | nil => simp
  | cons a rest ih =>
      have := length_pos_of_ne_nil (h a)
      rw [List.flatMap_cons, List.length_append, List.length_cons]
      omega

theorem length_le_flatMap_of_mem {write : α → List UInt8} {a : α} {l : List α} (h : a ∈ l) :
    (write a).length ≤ (l.flatMap write).length := by
  rw [List.flatMap_def]
  exact (List.sublist_flatten_of_mem (List.mem_map_of_mem h)).length_le

/-- A list comes back with the values as they come back. -/
theorem Faithful.list {w : Wire α} {keep : α → α} (h : w.Faithful keep) :
    w.list.Faithful (List.map keep) where
  nonempty l hNil := writeVarint_ne_nil l.length (List.append_eq_nil_iff.mp hNil).1
  reads l hLength := by
    have hSplit : (w.list.write l).length =
        (writeVarint l.length).length + (l.flatMap w.write).length := List.length_append
    have hCount := length_le_length_flatMap h.nonempty l
    have hWritten := length_pos_of_ne_nil (writeVarint_ne_nil l.length)
    have hFit : ∀ a ∈ l, (w.write a).length < UInt64.size := by
      intro a ha
      have hItem : (w.write a).length ≤ (l.flatMap w.write).length := length_le_flatMap_of_mem ha
      omega
    obtain ⟨cost, hCost, hItems⟩ := yields_many l (fun a ha => h.reads a (hFit a ha)) []
    exact ⟨8 + cost, by omega, (yields_length (by omega)).bind hItems⟩

/-- Bytes come back as they are. The claim for them is one byte each. -/
theorem faithful_bytes : bytes.Faithful id where
  nonempty l hNil := writeVarint_ne_nil l.length (List.append_eq_nil_iff.mp hNil).1
  reads l hLength := by
    have hSplit : (bytes.write l).length = (writeVarint l.length).length + l.length :=
      List.length_append
    have hWritten := length_pos_of_ne_nil (writeVarint_ne_nil l.length)
    exact ⟨8 + (l.length + 0), by omega,
      (yields_length (by omega)).bind ((Reader.yields_take l).claimed l.length)⟩

/-- The loop goes through the array from an index on and has the bytes before it in reverse. -/
theorem toList_loop_eq (b : ByteArray) (i : Nat) (done : List UInt8) :
    ByteArray.toList.loop b i done = done.reverse ++ b.data.toList.drop i := by
  rw [ByteArray.toList.loop]
  by_cases h : i < b.size
  · have hIndex : i < b.data.toList.length := h
    have hByte : b.get! i = b.data.toList[i] := by
      simp [ByteArray.get!, h]
    rw [if_pos h, toList_loop_eq b (i + 1), List.reverse_cons, List.append_assoc, hByte,
      List.singleton_append, ← List.drop_eq_getElem_cons hIndex]
  · have hEnd : b.data.toList.length ≤ i := Nat.not_lt.mp h
    rw [if_neg h, List.drop_eq_nil_of_le hEnd, List.append_nil]
termination_by b.size - i

/-- Every text comes back from its bytes, since these are an encoding of it. -/
theorem fromUTF8?_toList_toUTF8 (s : String) :
    String.fromUTF8? ⟨s.toUTF8.toList.toArray⟩ = some s := by
  have hBytes : (⟨s.toUTF8.toList.toArray⟩ : ByteArray) = s.toByteArray := by
    rw [ByteArray.toList, toList_loop_eq]
    simp
  rw [hBytes, String.fromUTF8?, dif_pos s.isValidUTF8]
  rfl

theorem faithful_text : text.Faithful id := faithful_bytes.restrict fromUTF8?_toList_toUTF8

/-- A map comes back from the list of its entries, which is in order already. -/
theorem Faithful.table {κ : Type} [Ord κ] [Std.TransOrd κ] [Std.LawfulEqOrd κ] {k : Wire κ}
    {w : Wire α} (hk : k.Faithful id) (hw : w.Faithful id) : (k.table w).Faithful id := by
  refine (hk.pair hw).list.as fun t => ?_
  simp

/-- A choice comes back from its place in the list of all choices. -/
theorem faithful_enumeration [DecidableEq α] {all : List α} (hAll : ∀ a, a ∈ all)
    (hSmall : all.length ≤ UInt32.size) : (enumeration all).Faithful id where
  nonempty a := faithful_word32.nonempty _
  reads a hLength := by
    obtain ⟨cost, hCost, hReads⟩ := faithful_word32.reads (UInt32.ofNat (all.idxOf a)) hLength
    have hPlace : all.idxOf a < all.length := List.idxOf_lt_length_of_mem (hAll a)
    have hIndex : (UInt32.ofNat (all.idxOf a)).toNat = all.idxOf a :=
      Nat.mod_eq_of_lt (Nat.lt_of_lt_of_le hPlace hSmall)
    have hFound : all[(UInt32.ofNat (all.idxOf a)).toNat]? = some a := by
      rw [hIndex, List.getElem?_eq_getElem hPlace, List.getElem_idxOf]
    exact ⟨cost, hCost, hReads.followed (Reader.yields_lift hFound)⟩

end Wire

end Disassembly
