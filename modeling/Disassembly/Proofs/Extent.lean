import Disassembly.Proofs.TableOrder
import Disassembly.Proofs.WireRoundTrip
import Mathlib.Algebra.GroupWithZero.Nat
import Mathlib.Data.List.Flatten

/-! Where a value ends. A reader finds the end in the bytes of the value itself, so whatever
stands behind them makes no difference. It may put up with more than its writer gives, such as
numbers in wide forms or a key that comes twice, but each of these takes more bytes: no value is
read from fewer of them than it is written in. -/
namespace Disassembly

namespace Reader

variable {α β : Type}

/-- Whatever the reader gives, it gives for bytes that it took off the front, and would give with
any others behind them. These bytes and the value are in the relation `fits`. -/
def Delimited (fits : List UInt8 → α → Prop) (r : Reader α) : Prop :=
  ∀ bytes budget a rest after, r ⟨bytes, budget⟩ = some (a, ⟨rest, after⟩) →
    ∃ used, bytes = used ++ rest ∧ fits used a ∧
      ∀ behind, r ⟨used ++ behind, budget⟩ = some (a, ⟨behind, after⟩)

/-- Bytes that are put behind those that are left stay there. -/
theorem Delimited.append {fits : List UInt8 → α → Prop} {r : Reader α} (h : Delimited fits r)
    {bytes rest : List UInt8} {budget after : Option Nat} {a : α}
    (hRead : r ⟨bytes, budget⟩ = some (a, ⟨rest, after⟩)) (behind : List UInt8) :
    r ⟨bytes ++ behind, budget⟩ = some (a, ⟨rest ++ behind, after⟩) := by
  obtain ⟨used, rfl, -, hReads⟩ := h _ _ _ _ _ hRead
  rw [List.append_assoc]
  exact hReads (rest ++ behind)

/-- Readers in sequence take their bytes one after the other. -/
theorem Delimited.bind {fits : List UInt8 → α → Prop} {fits' : α → List UInt8 → β → Prop}
    {both : List UInt8 → β → Prop} {r : Reader α} {f : α → Reader β} (hr : Delimited fits r)
    (hf : ∀ a, Delimited (fits' a) (f a))
    (hBoth : ∀ used a used' b, fits used a → fits' a used' b → both (used ++ used') b) :
    Delimited both (r >>= f) := by
  intro bytes budget b rest after h
  have hBind : ∀ bytes, (r >>= f) ⟨bytes, budget⟩ =
      (r ⟨bytes, budget⟩).bind fun ac => f ac.1 ac.2 := fun _ => rfl
  rw [hBind] at h
  obtain ⟨⟨a, middle, left⟩, hFirst, hSecond⟩ := Option.bind_eq_some_iff.mp h
  obtain ⟨used, rfl, hUsed, hReads⟩ := hr _ _ _ _ _ hFirst
  obtain ⟨used', rfl, hUsed', hReads'⟩ := hf a _ _ _ _ _ hSecond
  refine ⟨used ++ used', (List.append_assoc ..).symm, hBoth _ _ _ _ hUsed hUsed', fun behind => ?_⟩
  rw [hBind, List.append_assoc, hReads]
  exact hReads' behind

/-- A step that only computes takes no bytes, whatever stands behind. -/
theorem delimited_lift {fits : List UInt8 → α → Prop} {o : Option α}
    (hFits : ∀ a, o = some a → fits [] a) : Delimited fits (StateT.lift o : Reader α) := by
  intro bytes budget a rest after h
  cases o with
  | none => cases h
  | some a' =>
      cases h
      exact ⟨[], rfl, hFits a rfl, fun _ => rfl⟩

theorem delimited_pure {fits : List UInt8 → α → Prop} {a : α} (hFits : fits [] a) :
    Delimited fits (pure a : Reader α) :=
  delimited_lift (o := some a) fun _ hSame => Option.some.inj hSame ▸ hFits

theorem delimited_failure {fits : List UInt8 → α → Prop} :
    Delimited fits (failure : Reader α) := delimited_lift (o := none) nofun

/-- What is computed from the value takes no bytes. -/
theorem Delimited.lift {fits : List UInt8 → α → Prop} {fits' : List UInt8 → β → Prop}
    {r : Reader α} (h : Delimited fits r) {make? : α → Option β}
    (hFits : ∀ used a b, fits used a → make? a = some b → fits' used b) :
    Delimited fits' (do let a ← r; StateT.lift (make? a)) := by
  have hMake : ∀ a, Delimited (fun used b => used = [] ∧ make? a = some b)
      (StateT.lift (make? a)) := fun a => delimited_lift fun b hMade => ⟨rfl, hMade⟩
  refine h.bind hMake fun used a used' b hUsed hMade => ?_
  rw [hMade.1, List.append_nil]
  exact hFits used a b hUsed hMade.2

/-- A value that is computed from what is read is delimited as that is. -/
theorem Delimited.map {fits : List UInt8 → α → Prop} {fits' : List UInt8 → β → Prop}
    {r : Reader α} (h : Delimited fits r) (g : α → β)
    (hFits : ∀ used a, fits used a → fits' used (g a)) :
    Delimited fits' (do return g (← r)) := by
  have hMade : ∀ used a b, fits used a → some (g a) = some b → fits' used b := by
    rintro used a _ hUsed ⟨⟩
    exact hFits used a hUsed
  exact h.lift hMade

/-- A weaker relation between bytes and value holds as well. -/
theorem Delimited.mono {fits fits' : List UInt8 → α → Prop} {r : Reader α} (h : Delimited fits r)
    (hFits : ∀ used a, fits used a → fits' used a) : Delimited fits' r := by
  intro bytes budget a rest after hRead
  obtain ⟨used, hBytes, hUsed, hReads⟩ := h bytes budget a rest after hRead
  exact ⟨used, hBytes, hFits used a hUsed, hReads⟩

/-- A claim is made on the budget and not on the bytes. It succeeds with the same budget whatever
stands behind. -/
theorem delimited_claim (n : Nat) : Delimited (fun used _ => used = []) (claim n) := by
  intro bytes budget a rest after h
  refine ⟨[], ?_, rfl, fun behind => ?_⟩ <;> cases budget with
  | none =>
      cases h
      rfl
  | some left =>
      by_cases hRoom : n ≤ left <;> simp_all [claim]

/-- A claim takes no bytes. -/
theorem Delimited.claimed {fits : List UInt8 → α → Prop} {r : Reader α} (h : Delimited fits r)
    (n : Nat) : Delimited fits (do claim n; r) := by
  refine (delimited_claim n).bind (fun _ => h) fun used _ used' a hUsed hFits => ?_
  rwa [hUsed, List.nil_append]

/-- One byte is taken, and it is the value. -/
theorem delimited_byte : Delimited (fun used b => used = [b]) byte := by
  intro bytes budget a rest after h
  cases bytes with
  | nil => cases h
  | cons b bytes =>
      cases h
      exact ⟨[a], rfl, rfl, fun _ => rfl⟩

/-- As many bytes are taken as are asked for, and they are the value. -/
theorem delimited_take (n : Nat) :
    Delimited (fun used l => used = l ∧ l.length = n) (take n) := by
  intro bytes budget a rest after h
  by_cases hLength : n ≤ bytes.length
  · rw [take, if_pos hLength] at h
    cases h
    have hTaken : (bytes.take n).length = n := List.length_take_of_le hLength
    refine ⟨bytes.take n, (List.take_append_drop n bytes).symm, ⟨rfl, hTaken⟩, fun behind => ?_⟩
    have hEnough : n ≤ (bytes.take n ++ behind).length := by
      rw [List.length_append, hTaken]
      exact Nat.le_add_right _ _
    rw [take, if_pos hEnough, List.take_left' hTaken, List.drop_left' hTaken]
  · rw [take, if_neg hLength] at h
    cases h

/-- Each of the values stands behind the one before it. -/
theorem delimited_many (size : α → Nat) {item : Reader α}
    (h : Delimited (fun used a => size a ≤ used.length) item) (n : Nat) (done : List α) :
    Delimited (fun used l => ∃ new, l = done.reverse ++ new ∧ new.length = n ∧
      (new.map size).sum ≤ used.length) (item.many n done) := by
  induction n generalizing done with
  | zero =>
      exact delimited_pure ⟨[], (List.append_nil _).symm, rfl, Nat.zero_le _⟩
  | succ n ih =>
      refine h.bind (fun a => ih (a :: done)) ?_
      rintro used a used' l hItem ⟨new, rfl, hCount, hNew⟩
      refine ⟨a :: new, ?_, by rw [List.length_cons, hCount], ?_⟩
      · rw [List.reverse_cons, List.append_assoc, List.singleton_append]
      · rw [List.map_cons, List.sum_cons, List.length_append]
        exact Nat.add_le_add hItem hNew

end Reader

section Numbers

/-- So many bytes hold a number below the power of 256 that has them as its exponent. -/
theorem ofLittleEndian_lt (l : List UInt8) : ofLittleEndian l < Nat.pow 256 l.length := by
  induction l with
  | nil => exact Nat.one_pos
  | cons b rest ih =>
      have hDigit := b.toNat_lt
      have hPower : Nat.pow 256 (rest.length + 1) = 256 * Nat.pow 256 rest.length :=
        Nat.mul_comm _ _
      rw [ofLittleEndian, List.length_cons, hPower]
      omega

/-- The lengths of the four forms of a number, with the mark that the longer three have in front. -/
theorem length_writeVarint (n : Nat) : (writeVarint n).length =
    if n < 251 then 1 else if n < UInt16.size then 3 else if n < UInt32.size then 5 else 9 := by
  unfold writeVarint
  split
  · rfl
  split
  · exact congrArg (· + 1) (length_littleEndian 2 n)
  split
  · exact congrArg (· + 1) (length_littleEndian 4 n)
  · exact congrArg (· + 1) (length_littleEndian 8 n)

/-- Smaller numbers do not take more bytes. -/
theorem length_writeVarint_mono {m n : Nat} (h : m ≤ n) :
    (writeVarint m).length ≤ (writeVarint n).length := by
  have hShort : UInt16.size = 65536 := rfl
  have hWord : UInt32.size = 4294967296 := rfl
  rw [length_writeVarint, length_writeVarint]
  repeat' split
  all_goals omega

/-- The number of bytes behind the mark is what bounds the number. -/
theorem length_writeVarint_le (n : Nat) :
    (n < Nat.pow 256 2 → (writeVarint n).length ≤ 2 + 1) ∧
      (n < Nat.pow 256 4 → (writeVarint n).length ≤ 4 + 1) ∧ (writeVarint n).length ≤ 8 + 1 := by
  have hShort : UInt16.size = Nat.pow 256 2 := rfl
  have hWord : UInt32.size = Nat.pow 256 4 := rfl
  rw [length_writeVarint, hShort, hWord]
  repeat' split
  all_goals omega

open Reader

/-- A number is read from no fewer bytes than its shortest form has. -/
theorem delimited_readVarint (wide : Bool) :
    Delimited (fun used n => (writeVarint n).length ≤ used.length ∧ n < UInt64.size)
      (readVarint wide) := by
  have hNumber : ∀ width, width ≤ 8 → (∀ n, n < Nat.pow 256 width →
      (writeVarint n).length ≤ width + 1) →
      Delimited (fun used n => (writeVarint n).length ≤ used.length + 1 ∧ n < UInt64.size)
        (do return ofLittleEndian (← take width)) := by
    intro width hWidth hShort
    refine (delimited_take width).map ofLittleEndian fun used l hTaken => ?_
    have hBound := ofLittleEndian_lt l
    rw [hTaken.2] at hBound
    rw [hTaken.1, hTaken.2]
    exact ⟨hShort _ hBound, Nat.lt_of_lt_of_le hBound (Nat.pow_le_pow_right (by decide) hWidth)⟩
  refine delimited_byte.bind (show ∀ mark, Delimited
    (fun used n => (writeVarint n).length ≤ used.length + 1 ∧ n < UInt64.size) _ from
      fun mark => ?_) fun used mark used' n hMark hFits => ?_
  · split
    · rename_i hSmall
      have hByte : mark.toNat < 251 := UInt8.lt_iff_toNat_lt.mp hSmall
      refine delimited_pure ?_
      rw [length_writeVarint, if_pos hByte]
      exact ⟨Nat.le_add_left _ _, Nat.lt_trans hByte (by decide)⟩
    split
    · exact hNumber 2 (by decide) fun n => (length_writeVarint_le n).1
    split
    · exact hNumber 4 (by decide) fun n => (length_writeVarint_le n).2.1
    split
    · exact hNumber 8 (by decide) fun n _ => (length_writeVarint_le n).2.2
    · exact delimited_failure
  · rw [hMark, List.singleton_append, List.length_cons]
    exact hFits

/-- A number of 64 bits that is read as a signed one is written as the same number again. -/
theorem zigzag_unzigzag {n : Nat} (h : n < UInt64.size) :
    zigzag (Int64.ofInt (unzigzag n)).toInt = n := by
  have hSize : UInt64.size = 18446744073709551616 := rfl
  have hRange : -2 ^ 63 ≤ unzigzag n ∧ unzigzag n < 2 ^ 63 := by
    unfold unzigzag
    split <;> omega
  rw [Int64.toInt_ofInt_of_le hRange.1 hRange.2]
  unfold zigzag unzigzag
  split <;> split <;> omega

end Numbers

namespace Table

variable {κ α : Type} [Ord κ]

/-- An entry that is put in is added or replaces another. None of the entries that were there is
doubled. -/
theorem subperm_insertEntry (k : κ) (v : α) (l : List (κ × α)) :
    (insertEntry k v l).Subperm ((k, v) :: l) := by
  induction l with
  | nil => exact List.Subperm.refl _
  | cons head rest ih =>
      obtain ⟨k', v'⟩ := head
      rw [insertEntry]
      split
      · exact List.Subperm.refl _
      · exact ((List.sublist_cons_self _ _).cons_cons _).subperm
      · exact ((List.subperm_cons _).mpr ih).trans (List.Perm.swap ..).subperm

variable [Std.TransOrd κ] [Std.LawfulEqOrd κ]

/-- The entries of a map are among those that were put in, no more often than they were. -/
theorem subperm_ofList (l : List (κ × α)) : (ofList l).entries.Subperm l := by
  have hFold : ∀ (l : List (κ × α)) (t : Table κ α),
      (l.foldl (fun t e => t.insert e.1 e.2) t).entries.Subperm (l ++ t.entries) := by
    intro l
    induction l with
    | nil => exact fun t => List.Subperm.refl _
    | cons head rest ih =>
        intro t
        have hInsert : (t.insert head.1 head.2).entries.Subperm (head :: t.entries) :=
          subperm_insertEntry head.1 head.2 t.entries
        exact (ih _).trans (((List.subperm_append_left rest).mpr hInsert).trans
          List.perm_middle.subperm)
  have hAll := hFold l empty
  rwa [show (empty : Table κ α).entries = [] from rfl, List.append_nil] at hAll

end Table

namespace Wire

variable {α β : Type}

/-- Every value is read from at least as many bytes as it is written in, and from these whatever
stands behind them. -/
def Concise (w : Wire α) : Prop :=
  w.read.Delimited fun used a => (w.write a).length ≤ used.length

/-- No value is read from nothing. -/
theorem Concise.takes {w : Wire α} {keep : α → α} (h : w.Concise) (hFaithful : w.Faithful keep) :
    w.read.Delimited fun used _ => 1 ≤ used.length :=
  Reader.Delimited.mono h fun _ a hUsed =>
    Nat.le_trans (length_pos_of_ne_nil (hFaithful.nonempty a)) hUsed

/-- A form that is used for another type stays concise, if what is made from a value takes no more
bytes than the value did. -/
theorem Concise.as {w : Wire α} (h : w.Concise) {make : α → β} {view : β → α}
    (hView : ∀ a, (w.write (view (make a))).length ≤ (w.write a).length) :
    (w.as make view).Concise :=
  Reader.Delimited.map h make fun _ a hUsed => Nat.le_trans (hView a) hUsed

/-- A value that only some of the others stand for is written as the one that was read. -/
theorem Concise.restrict {w : Wire α} (h : w.Concise) {make? : α → Option β} {view : β → α}
    (hView : ∀ a b, make? a = some b → view b = a) : (w.restrict make? view).Concise :=
  Reader.Delimited.lift h fun used a b hUsed hMade => by
    change (w.write (view b)).length ≤ used.length
    rwa [hView a b hMade]

/-- Two values in a row are read from no fewer bytes than they are written in, as this holds of each
of them. -/
theorem Concise.pair {w : Wire α} {v : Wire β} (hw : w.Concise) (hv : v.Concise) :
    (w.pair v).Concise := by
  refine hw.bind (show ∀ a, Reader.Delimited
    (fun used ab => ab.1 = a ∧ (v.write ab.2).length ≤ used.length) _ from
      fun a => Reader.Delimited.map hv (Prod.mk a) fun _ b hUsed => ⟨rfl, hUsed⟩) ?_
  rintro used a used' ⟨_, b⟩ hUsed ⟨rfl, hUsed'⟩
  change (w.write _ ++ v.write b).length ≤ _
  rw [List.length_append, List.length_append]
  exact Nat.add_le_add hUsed hUsed'

/-- A number that stands for a value is no smaller than the one in which the value is written. -/
theorem concise_number (wide : Bool) (claimed : Nat) {make : Nat → α} {view : α → Nat}
    (hView : ∀ n, n < UInt64.size → view (make n) ≤ n) :
    Reader.Delimited (fun used a => (writeVarint (view a)).length ≤ used.length)
      (do Reader.claim claimed; return make (← readVarint wide)) := by
  refine Reader.Delimited.claimed ((delimited_readVarint wide).map make fun used n hUsed => ?_) claimed
  exact Nat.le_trans (length_writeVarint_mono (hView n hUsed.2)) hUsed.1

theorem concise_word32 : word32.Concise :=
  concise_number false 4 fun n _ => by
    rw [UInt32.toNat_ofNat']
    exact Nat.mod_le _ _

theorem concise_word64 : word64.Concise :=
  concise_number true 8 fun n _ => by
    rw [UInt64.toNat_ofNat']
    exact Nat.mod_le _ _

/-- A signed number is written as the very number that was read for it. -/
theorem concise_int64 : int64.Concise :=
  concise_number true 8 fun _ hn => Nat.le_of_eq (zigzag_unzigzag hn)

/-- A length may be read in a wide form, but it is written in its shortest. -/
theorem concise_length : length.Concise := by
  refine Reader.Delimited.claimed ?_ 8
  exact (delimited_readVarint true).mono fun _ _ hUsed => hUsed.1

theorem concise_bool : bool.Concise := by
  refine (Reader.delimited_byte.bind (show ∀ b, Reader.Delimited (fun _ _ => True) _ from
    fun b => ?_) fun used b used' a hByte _ => ?_).claimed 1
  · split
    · exact Reader.delimited_pure trivial
    · exact Reader.delimited_pure trivial
    · exact Reader.delimited_failure
  · rw [hByte]
    exact Nat.succ_le_succ (Nat.zero_le _)

/-- A value that may be missing has one byte in front of it, which says whether it is there. -/
theorem Concise.option {w : Wire α} (h : w.Concise) : w.option.Concise := by
  refine concise_bool.bind (show ∀ b, Reader.Delimited
    (fun used o => (w.option.write o).length ≤ used.length + 1) _ from fun b => ?_)
    fun used b used' o hUsed hUsed' => ?_
  · cases b with
    | false => exact Reader.delimited_pure (Nat.le_refl 1)
    | true => exact Reader.Delimited.map h some fun used a hUsed => Nat.succ_le_succ hUsed
  · have hFlag : 1 ≤ used.length := hUsed
    rw [List.length_append]
    omega

/-- Bytes come with their number in front, and they are taken over as they are. -/
theorem concise_bytes : bytes.Concise := by
  refine concise_length.bind (fun n => (Reader.delimited_take n).claimed n) ?_
  rintro used n used' l hUsed ⟨rfl, rfl⟩
  change (length.write used'.length ++ used').length ≤ _
  rw [List.length_append, List.length_append]
  exact Nat.add_le_add_right hUsed _

/-- A text that is read has the bytes that it was read from: no text has two encodings. -/
theorem toUTF8_of_fromUTF8? {l : List UInt8} {s : String}
    (h : String.fromUTF8? ⟨l.toArray⟩ = some s) : s.toUTF8.toList = l := by
  rw [String.fromUTF8?] at h
  split at h
  · cases h
    rw [ByteArray.toList, toList_loop_eq]
    simp [String.fromUTF8]
  · cases h

theorem concise_text : text.Concise := concise_bytes.restrict fun _ _ => toUTF8_of_fromUTF8?

/-- A list has the number of its values in front, and the values one after the other. -/
theorem Concise.list {w : Wire α} (h : w.Concise) : w.list.Concise := by
  refine concise_length.bind (fun n => Reader.delimited_many (fun a => (w.write a).length) h n []) ?_
  rintro used n used' l hUsed ⟨_, rfl, rfl, hItems⟩
  change (length.write _ ++ List.flatMap w.write _).length ≤ _
  rw [List.length_append, List.length_append, List.length_flatMap]
  exact Nat.add_le_add hUsed hItems

/-- Fewer values do not take more bytes. -/
theorem length_write_list_le {w : Wire α} {l l' : List α} (h : l.Subperm l') :
    (w.list.write l).length ≤ (w.list.write l').length := by
  obtain ⟨l'', hPerm, hSublist⟩ := h
  have hItems : (l.flatMap w.write).length ≤ (l'.flatMap w.write).length := by
    rw [← (hPerm.flatMap_right w.write).length_eq]
    exact (hSublist.flatMap w.write).length_le
  change (length.write l.length ++ l.flatMap w.write).length ≤
    (length.write l'.length ++ l'.flatMap w.write).length
  rw [List.length_append, List.length_append, ← hPerm.length_eq]
  exact Nat.add_le_add (length_writeVarint_mono hSublist.length_le) hItems

/-- A map is read from a list. Keys that come twice are dropped and the rest is put in order, and
neither makes the list longer. -/
theorem Concise.table {κ : Type} [Ord κ] [Std.TransOrd κ] [Std.LawfulEqOrd κ] {k : Wire κ}
    {w : Wire α} (hk : k.Concise) (hw : w.Concise) : (k.table w).Concise :=
  (hk.pair hw).list.as fun l => length_write_list_le (Table.subperm_ofList l)

/-- A choice is written with the first place at which it stands, so never with a larger one than was
read. -/
theorem concise_enumeration [DecidableEq α] (all : List α) : (enumeration all).Concise := by
  refine Reader.Delimited.lift concise_word32 fun used i a hUsed hFound => ?_
  obtain ⟨hPlace, rfl⟩ := List.getElem?_eq_some_iff.mp hFound
  -- The value may stand in the list before its place, but not behind it.
  have hFirst : all.idxOf all[i.toNat] ≤ i.toNat := by
    by_contra hBehind
    simpa using List.not_of_lt_findIdx (Nat.lt_of_not_le hBehind)
  refine Nat.le_trans (length_writeVarint_mono ?_) hUsed
  rw [UInt32.toNat_ofNat']
  exact Nat.le_trans (Nat.mod_le _ _) hFirst

end Wire

open Wire

/-- An id has sixteen bytes, and their number in front of them. Nothing else is let in. -/
theorem Uuid.concise_wire : Uuid.wire.Concise := by
  refine concise_bytes.restrict fun l u hMade => ?_
  rw [ofBytes?] at hMade
  split at hMade
  · cases hMade
    rfl
  · cases hMade

theorem BlockId.concise_wire : BlockId.wire.Concise :=
  ((Uuid.concise_wire.as fun _ => Nat.le_refl _).pair concise_word32).as fun _ => Nat.le_refl _

theorem EdgeLabel.concise_wire : EdgeLabel.wire.Concise :=
  ((concise_enumeration _).pair (concise_bool.pair concise_bool)).as fun _ => Nat.le_refl _

theorem Edge.concise_wire : Edge.wire.Concise :=
  (BlockId.concise_wire.pair (BlockId.concise_wire.pair EdgeLabel.concise_wire)).as
    fun _ => Nat.le_refl _

section Alternatives

variable {α β : Type} {w : Wire α}

/-- The content of a form that numbers its alternatives stands behind the number. -/
theorem concise_tagged {f : UInt32 → Reader α} (hRead : w.read = word32.read >>= f)
    (hContent : ∀ tag, (f tag).Delimited fun used a =>
      (w.write a).length ≤ (word32.write tag).length + used.length) : w.Concise := by
  rw [Concise, hRead]
  refine concise_word32.bind hContent fun used tag used' a hUsed hUsed' => ?_
  rw [List.length_append]
  omega

/-- An alternative has its number in front, which is also what the writer puts there. -/
theorem delimited_alternative {content : Wire β} (h : content.Concise) {tag : UInt32}
    {make : β → α} (hWrite : ∀ b, w.write (make b) = word32.write tag ++ content.write b) :
    Reader.Delimited (fun used a => (w.write a).length ≤ (word32.write tag).length + used.length)
      (do return make (← content.read)) := by
  refine Reader.Delimited.map h make fun used b hUsed => ?_
  rw [hWrite, List.length_append]
  exact Nat.add_le_add_left hUsed _

end Alternatives

/-- The three kinds of blocks are numbered, and a number without a kind is refused. -/
theorem Block.concise_wire : Block.wire.Concise := by
  refine concise_tagged rfl fun tag => ?_
  split
  · exact delimited_alternative
      (concise_word64.option.pair (concise_word64.pair concise_word64)) fun _ => rfl
  · exact delimited_alternative (concise_word64.option.pair concise_word64) fun _ => rfl
  · exact Reader.delimited_pure (Nat.le_add_right _ _)
  · exact Reader.delimited_failure

/-- The three kinds of referents are numbered in the same way. -/
theorem Referent.concise_wire : Referent.wire.Concise := by
  refine concise_tagged rfl fun tag => ?_
  split
  · exact delimited_alternative BlockId.concise_wire fun _ => rfl
  · exact delimited_alternative concise_word64 fun _ => rfl
  · exact delimited_alternative concise_int64 fun _ => rfl
  · exact Reader.delimited_failure

theorem Symbol.concise_wire : Symbol.wire.Concise :=
  (concise_text.pair (Referent.concise_wire.pair concise_bool)).as fun _ => Nat.le_refl _

theorem Section.concise_wire : Section.wire.Concise :=
  (concise_text.pair (concise_word64.pair
    (concise_word64.pair (concise_word32.as fun _ => Nat.le_refl _)))).as fun _ => Nat.le_refl _

theorem AuxTables.concise_wire : AuxTables.wire.Concise :=
  concise_text.table ((concise_text.pair concise_bytes).as fun _ => Nat.le_refl _)

theorem AddressSpace.concise_wire : AddressSpace.wire.Concise :=
  (concise_word32.pair (concise_word32.table Section.concise_wire)).as fun _ => Nat.le_refl _

theorem BlockGraph.concise_wire : BlockGraph.wire.Concise :=
  ((Uuid.concise_wire.as fun _ => Nat.le_refl _).pair (concise_word32.pair (concise_word32.pair
    ((concise_word32.table Block.concise_wire).pair
      (concise_word32.table Edge.concise_wire))))).as fun _ => Nat.le_refl _

theorem SymbolTable.concise_wire : SymbolTable.wire.Concise :=
  (concise_word32.pair (concise_word32.table Symbol.concise_wire)).as fun _ => Nat.le_refl _

theorem Module.concise_wire : Module.wire.Concise :=
  ((Uuid.concise_wire.as fun _ => Nat.le_refl _).pair (concise_text.pair (concise_text.pair
    ((concise_enumeration _).pair ((concise_enumeration _).pair
    ((concise_enumeration _).pair (concise_word64.pair (concise_int64.pair
    (BlockId.concise_wire.option.pair (AddressSpace.concise_wire.pair
    (BlockGraph.concise_wire.pair (SymbolTable.concise_wire.pair
      AuxTables.concise_wire)))))))))))).as fun _ => Nat.le_refl _

/-- No program is read from fewer bytes than it is written in. This includes the forms that the
writer never uses, such as wide numbers and maps out of order. -/
theorem Program.concise_wire : Program.wire.Concise :=
  (Module.concise_wire.list.pair AuxTables.concise_wire).as fun _ => Nat.le_refl _

end Disassembly
