import Disassembly.Proofs.DigestLength
import Disassembly.Proofs.Loading
import Disassembly.Proofs.WireModel

/-! Archives of programs are read back. The header of an archive passes every test, the budget
has room for the payload, and what is left is the check of the content. -/
namespace Disassembly

namespace Archive

/-- A payload of at most this many bytes is always within the budget that its length gets. -/
def payloadLimit : Nat := 16 * 1024 * 1024

/-- Every admissible payload may claim eight units for each of its bytes, whichever of the four
budgets it falls under. -/
theorem need_le_budget {n : Nat} (h : n ≤ payloadLimit) : 8 * n ≤ budget n := by
  change n ≤ 16777216 at h
  unfold budget
  dsimp only
  split
  · omega
  split
  · omega
  split <;> omega

/-- A payload is read up to what stands behind it, and gives back what was written, without what
is derived. -/
theorem readPayload_append {p : Program} {limit : Option Nat}
    (hLength : (payload p).length < UInt64.size)
    (hLimit : ∀ left, limit = some left → 8 * (payload p).length ≤ left) (behind : List UInt8) :
    readPayload limit (payload p ++ behind) = some (p.stored, (payload p).length) := by
  obtain ⟨cost, hCost, hReads⟩ := Program.faithful_wire.reads p hLength
  have hRead := hReads behind limit fun left hLeft => Nat.le_trans hCost (hLimit left hLeft)
  change (Program.wire.read ⟨Program.wire.write p ++ behind, limit⟩).map _ = _
  rw [hRead, Option.map_some]
  simp only
  rw [List.length_append, Nat.add_sub_cancel]

/-- What is written as a payload is read to its last byte, without a budget or under one of eight
units for each byte. -/
theorem readPayload_payload {p : Program} {limit : Option Nat}
    (hLength : (payload p).length < UInt64.size)
    (hLimit : ∀ left, limit = some left → 8 * (payload p).length ≤ left) :
    readPayload limit (payload p) = some (p.stored, (payload p).length) := by
  have hRead := readPayload_append hLength hLimit []
  rwa [List.append_nil] at hRead

/-- A payload of admissible length is always readable, so whether it is accepted is left to the
rules of a program. -/
theorem decodePayload_payload {p : Program} (h : (payload p).length ≤ payloadLimit) :
    decodePayload (payload p) = accept p.stored := by
  have hLength : (payload p).length < UInt64.size := Nat.lt_of_le_of_lt h (by decide)
  have hLimit : ∀ left, some (budget (payload p).length) = some left →
      8 * (payload p).length ≤ left :=
    fun left hLeft => Option.some.inj hLeft ▸ need_le_budget h
  unfold decodePayload
  rw [readPayload_payload hLength hLimit]
  exact if_neg fun h => h rfl

theorem take_of_eq_append {bytes front behind : List UInt8} {n : Nat}
    (h : bytes = front ++ behind) (hLength : front.length = n) : bytes.take n = front := by
  rw [h, ← hLength, List.take_left]

theorem drop_of_eq_append {bytes front behind : List UInt8} {n : Nat}
    (h : bytes = front ++ behind) (hLength : front.length = n) : bytes.drop n = behind := by
  rw [h, ← hLength, List.drop_left]

/-- The fields of an archive, each at the place where it is looked for. -/
theorem fields_encode (p : Program) :
    headerLength ≤ (encode p).length ∧ (encode p).take 4 = magic ∧
      versionField (encode p) = version ∧ digestField (encode p) = Blake3.hash (payload p) ∧
      (encode p).drop headerLength = payload p := by
  have hDigest := Blake3.length_hash (payload p)
  have hVersion : (littleEndian 4 version.toNat).length = 4 := length_littleEndian 4 _
  have hFields : encode p =
      magic ++ (littleEndian 4 version.toNat ++ (Blake3.hash (payload p) ++ payload p)) := by
    rw [encode, List.append_assoc, List.append_assoc]
  have hBehindMagic := drop_of_eq_append hFields (n := 4) rfl
  have hStart : (magic ++ littleEndian 4 version.toNat).length = 8 := by
    rw [List.length_append, hVersion]
    rfl
  have hBehindVersion : (encode p).drop 8 = Blake3.hash (payload p) ++ payload p :=
    drop_of_eq_append (by rw [encode, List.append_assoc]) hStart
  have hHeader : (magic ++ littleEndian 4 version.toNat ++ Blake3.hash (payload p)).length =
      headerLength := by
    rw [List.length_append, hStart, hDigest]
    rfl
  refine ⟨?_, take_of_eq_append hFields rfl, ?_, ?_, drop_of_eq_append rfl hHeader⟩
  · rw [encode, List.length_append, hHeader]
    exact Nat.le_add_right _ _
  · rw [versionField, hBehindMagic, take_of_eq_append rfl hVersion, ofLittleEndian_littleEndian]
    rfl
  · rw [digestField, hBehindVersion, take_of_eq_append rfl hDigest]

theorem length_encode (p : Program) : (encode p).length = headerLength + (payload p).length := by
  obtain ⟨hLength, -, -, -, hPayload⟩ := fields_encode p
  rw [← hPayload, List.length_drop, Nat.add_sub_cancel' hLength]

/-- Reading the archive of a program comes down to its payload, under all options. -/
theorem decode_encode_eq (options : ArchiveOptions) (p : Program) :
    decode options (encode p) = decodePayload (payload p) := by
  obtain ⟨hLength, hMagic, hVersion, hDigest, hPayload⟩ := fields_encode p
  rw [decode_of_header hLength hMagic hVersion (by rw [hPayload, hDigest]), hPayload]

/-- Within the limit nothing is left to fail but the check of the content. -/
theorem decode_encode (options : ArchiveOptions) {p : Program}
    (h : (payload p).length ≤ payloadLimit) : decode options (encode p) = accept p.stored := by
  rw [decode_encode_eq, decodePayload_payload h]

end Archive

end Disassembly
