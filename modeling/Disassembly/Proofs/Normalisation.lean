import Disassembly.Proofs.ArchiveContent
import Disassembly.Proofs.Extent
import Mathlib.Data.List.Induction

/-! Archives in normal form. Many archives are read as one program, but all of them only differ in
what reading forgets: how wide a number is written, and in which order the entries of a map stand
and which of them are replaced by later ones. Writing what was read gives the normal form, which
is no longer than what was read and gives the same program. -/
namespace Disassembly

namespace Table

variable {κ α : Type} [Ord κ] [Std.TransOrd κ] [Std.LawfulEqOrd κ]

/-- Of the entries that are put in under one key, the last one is found. -/
theorem get?_ofList [DecidableEq κ] (l : List (κ × α)) (k : κ) :
    (ofList l).get? k = (l.reverse.find? fun e => e.1 = k).map Prod.snd := by
  induction l using List.reverseRecOn with
  | nil => rfl
  | append_singleton front last ih =>
      have hInsert : ofList (front ++ [last]) = (ofList front).insert last.1 last.2 :=
        List.foldl_concat ..
      rw [hInsert, get?_insert, List.reverse_concat, List.find?_cons, ih]
      by_cases h : last.1 = k <;> simp [h]

end Table

/-- A number is read in every width that has room for it, of the widths that its reader takes. -/
theorem yields_readVarint_wide (wide : Bool) (n : Nat) :
    (n < Nat.pow 256 2 → (readVarint wide).Yields (251 :: littleEndian 2 n) 0 n) ∧
      (n < Nat.pow 256 4 → (readVarint wide).Yields (252 :: littleEndian 4 n) 0 n) ∧
      (wide = true → n < Nat.pow 256 8 →
        (readVarint wide).Yields (253 :: littleEndian 8 n) 0 n) := by
  refine ⟨fun h => yields_readVarint_of_behind (yields_littleEndian h),
    fun h => yields_readVarint_of_behind (yields_littleEndian h), ?_⟩
  rintro rfl h
  exact yields_readVarint_of_behind (yields_littleEndian h)

/-- A map is read from any list of entries that has the same last entry under each key. -/
theorem Wire.read_table_eq_some_iff {κ α : Type} [Ord κ] [Std.TransOrd κ] [Std.LawfulEqOrd κ]
    [DecidableEq κ] {k : Wire κ} {w : Wire α} {start stop : Cursor} {t : Table κ α} :
    (k.table w).read start = some (t, stop) ↔
      ∃ entries, (k.pair w).list.read start = some (entries, stop) ∧
        ∀ key, t.get? key = (entries.reverse.find? fun e => e.1 = key).map Prod.snd := by
  have hRead : (k.table w).read start =
      ((k.pair w).list.read start).map fun (entries, stop) => (Table.ofList entries, stop) := by
    change ((k.pair w).list.read start).bind _ = _
    rw [Option.map_eq_bind]
    rfl
  rw [hRead, Option.map_eq_some_iff]
  constructor
  · rintro ⟨⟨entries, stop⟩, hEntries, hMade⟩
    cases hMade
    exact ⟨entries, hEntries, Table.get?_ofList entries⟩
  · rintro ⟨entries, hEntries, hLast⟩
    refine ⟨(entries, stop), hEntries, ?_⟩
    have hSame : Table.ofList entries = t :=
      Table.ext_get? fun key => (Table.get?_ofList entries key).trans (hLast key).symm
    simp only [hSame]

/-- Leaving out what is derived makes no difference to relinking, which starts without it. -/
theorem Program.relink_stored (p : Program) : p.stored.relink = p.relink := by
  have hModule : ∀ m : Module, m.stored.relink = m.relink := fun _ => rfl
  simp [stored, relink, Function.comp_def, hModule]

namespace Archive

/-- What is read from a payload is written in no more bytes. -/
theorem length_payload_le {limit : Option Nat} {content : List UInt8} {p : Program} {taken : Nat}
    (h : readPayload limit content = some (p, taken)) : (payload p).length ≤ content.length := by
  obtain ⟨⟨p, rest, after⟩, hRead, hSame⟩ := Option.map_eq_some_iff.mp h
  cases hSame
  obtain ⟨used, rfl, hUsed, -⟩ := Program.concise_wire _ _ _ _ _ hRead
  rw [List.length_append]
  exact Nat.le_add_right_of_le hUsed

/-- A program that was read is read from its own archive just as it is. -/
theorem decode_encode_of_decode {options : ArchiveOptions} {bytes : List UInt8} {p : Program}
    (hSize : (bytes.drop headerLength).length ≤ payloadLimit) (h : decode options bytes = .ok p) :
    decode {} (encode p) = .ok p ∧ (encode p).length ≤ bytes.length := by
  obtain ⟨hHeader, hPayload⟩ := decodePayload_of_decode h
  obtain ⟨q, hRead, hAccept⟩ := exists_readPayload_of_decodePayload hPayload
  obtain ⟨hWellFormed, rfl⟩ := accept_eq_ok_iff.mp hAccept
  have hSame : payload q.relink = payload q := by
    rw [← payload_stored q.relink, Program.stored_relink, payload_stored]
  have hShorter : (payload q.relink).length ≤ (bytes.drop headerLength).length :=
    hSame ▸ length_payload_le hRead
  constructor
  · rw [decode_encode {} (Nat.le_trans hShorter hSize), Program.stored_relink,
      accept_stored hWellFormed, Program.relink_stored]
  · rw [List.length_drop] at hShorter
    rw [length_encode]
    omega

/-- Reading and then writing an archive brings it into normal form: the new archive is no longer,
is read as the very same program, and is written again as it is. What is forgotten on the way is
how numbers were spelled, in which order the entries of maps stood, and every entry with a later
one under its key. -/
theorem encode_of_decode_is_normal {options : ArchiveOptions} {bytes : List UInt8} {p : Program}
    (hSize : (bytes.drop headerLength).length ≤ payloadLimit) (h : decode options bytes = .ok p) :
    (∃ back, decode {} (encode p) = .ok back ∧ back = p ∧ back.sameContent p = true ∧
      encode back = encode p) ∧
    (encode p).length ≤ bytes.length ∧
    (∀ wide n,
      (n < Nat.pow 256 2 → (readVarint wide).Yields (251 :: littleEndian 2 n) 0 n) ∧
      (n < Nat.pow 256 4 → (readVarint wide).Yields (252 :: littleEndian 4 n) 0 n) ∧
      (wide = true → n < Nat.pow 256 8 →
        (readVarint wide).Yields (253 :: littleEndian 8 n) 0 n)) ∧
    ∀ {κ α : Type} [Ord κ] [Std.TransOrd κ] [Std.LawfulEqOrd κ] [DecidableEq κ] (k : Wire κ)
      (w : Wire α) (start stop : Cursor) (t : Table κ α),
      (k.table w).read start = some (t, stop) ↔
        ∃ entries, (k.pair w).list.read start = some (entries, stop) ∧
          ∀ key, t.get? key = (entries.reverse.find? fun e => e.1 = key).map Prod.snd := by
  obtain ⟨hDecode, hLength⟩ := decode_encode_of_decode hSize h
  exact ⟨⟨p, hDecode, rfl, decide_eq_true rfl, rfl⟩, hLength, yields_readVarint_wide,
    fun k w start stop t => Wire.read_table_eq_some_iff⟩

/-- An archive without a digest that goes a long way round: the number of its modules, none, is
written in three bytes, and of three tables the first has the name of the last and the second
should stand before both. -/
def roundabout : List UInt8 :=
  magic ++ littleEndian 4 1 ++ List.replicate 32 0 ++
    [251, 0, 0, 3, 1, 98, 0, 1, 7, 1, 97, 0, 0, 1, 98, 0, 1, 9]

theorem encode_of_decode_is_normal_roundabout :
    let p : Program := { auxData := ⟨[("a", ⟨"", []⟩), ("b", ⟨"", [9]⟩)], by decide⟩ }
    (roundabout.drop headerLength).length ≤ payloadLimit ∧
      decode { verifyChecksum := false } roundabout = .ok p ∧
      decode {} (encode p) = .ok p ∧ (encode p).length ≤ roundabout.length := by
  intro p
  have hSize : (roundabout.drop headerLength).length ≤ payloadLimit := by decide
  have hDecode : decode { verifyChecksum := false } roundabout = .ok p := by decide +kernel
  obtain ⟨⟨_, hBack, rfl, -⟩, hLength, -⟩ := encode_of_decode_is_normal hSize hDecode
  exact ⟨hSize, hDecode, hBack, hLength⟩

end Archive

end Disassembly
