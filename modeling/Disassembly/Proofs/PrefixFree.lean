import Disassembly.Proofs.Extent
import Disassembly.Proofs.Metering
import Disassembly.Proofs.Reachable

/-! No archive is the beginning of another. An archive that is cut short, wherever the cut falls,
and one with more bytes behind it are both refused, whether or not the digest is looked at. -/
namespace Disassembly.Archive

variable {p : Program}

/-- Were the first part of a payload readable, the whole would be read no further. -/
theorem decodePayload_prefix_ne_ok {q : Program} {front behind : List UInt8}
    (hLength : (payload p).length < UInt64.size) (hSplit : front ++ behind = payload p)
    (hCut : behind ≠ []) : decodePayload front ≠ .ok q := by
  intro h
  obtain ⟨r, hRead, -⟩ := exists_readPayload_of_decodePayload h
  obtain ⟨hUnlimited, -⟩ := readPayload_of_budget hRead
  obtain ⟨⟨r', rest, after⟩, hFront, -⟩ := Option.map_eq_some_iff.mp hUnlimited
  have hStops : readPayload none (payload p) =
      some (r', (payload p).length - (rest ++ behind).length) := by
    rw [readPayload, ← hSplit, Program.concise_wire.append hFront behind]
    rfl
  have hEnds : readPayload none (payload p) = _ := readPayload_payload hLength nofun
  have hTaken := (Prod.mk.inj (Option.some.inj (hStops.symm.trans hEnds))).2
  have hBehind := List.length_pos_iff.mpr hCut
  rw [← hSplit, List.length_append, List.length_append] at hTaken
  omega

/-- The bytes behind a payload are counted. -/
theorem decodePayload_append {behind : List UInt8} (hBehind : behind ≠ [])
    (hSize : (payload p).length + behind.length ≤ payloadLimit) :
    decodePayload (payload p ++ behind) = .error (.corrupt (.trailingBytes behind.length)) := by
  have hPositive := List.length_pos_iff.mpr hBehind
  have hLength : (payload p).length < UInt64.size :=
    Nat.lt_of_le_of_lt (Nat.le_trans (Nat.le_add_right _ _) hSize) (by decide)
  have hWhole : (payload p ++ behind).length = (payload p).length + behind.length :=
    List.length_append
  have hLimit : ∀ left, some (budget (payload p ++ behind).length) = some left →
      8 * (payload p).length ≤ left := by
    intro left hLeft
    have hNeed : 8 * (payload p ++ behind).length ≤ budget (payload p ++ behind).length :=
      need_le_budget (hWhole ▸ hSize)
    rw [← Option.some.inj hLeft]
    omega
  have hTaken : (payload p).length ≠ (payload p ++ behind).length := by omega
  unfold decodePayload
  rw [readPayload_append hLength hLimit]
  simp only
  rw [if_pos hTaken, hWhole, Nat.add_sub_cancel_left]

/-- The header is looked for in the first forty bytes alone. -/
theorem header_append {front : List UInt8} (h : headerLength ≤ front.length)
    (behind : List UInt8) :
    headerLength ≤ (front ++ behind).length ∧ (front ++ behind).take 4 = front.take 4 ∧
      versionField (front ++ behind) = versionField front ∧
      digestField (front ++ behind) = digestField front ∧
      (front ++ behind).drop headerLength = front.drop headerLength ++ behind := by
  have hField : ∀ start width, start + width ≤ headerLength →
      ((front ++ behind).drop start).take width = (front.drop start).take width := by
    intro start width hWithin
    have hFit : width ≤ (front.drop start).length := by
      rw [List.length_drop]
      omega
    rw [List.drop_append_of_le_length (by omega), List.take_append_of_le_length hFit]
  refine ⟨?_, hField 0 4 (by decide), ?_, hField 8 32 (by decide),
    List.drop_append_of_le_length h⟩
  · rw [List.length_append]
    exact Nat.le_add_right_of_le h
  · rw [versionField, versionField, hField 4 4 (by decide)]

/-- A part of an archive is never taken for the archive of something smaller. -/
theorem decode_prefix {options : ArchiveOptions} {front : List UInt8}
    (hLength : (payload p).length < UInt64.size) (hPrefix : front <+: encode p)
    (hProper : front ≠ encode p) : ∃ cause, decode options front = .error (.corrupt cause) := by
  obtain ⟨behind, hSplit⟩ := hPrefix
  have hCut : behind ≠ [] := by
    rintro rfl
    exact hProper (by rw [← hSplit, List.append_nil])
  obtain ⟨-, -, hVersion, -, hPayload⟩ := fields_encode p
  rw [← hSplit] at hVersion hPayload
  cases hDecode : decode options front with
  | ok q =>
      obtain ⟨hHeader, hFront⟩ := decodePayload_of_decode hDecode
      obtain ⟨-, -, -, -, hDrop⟩ := header_append hHeader behind
      exact absurd hFront (decodePayload_prefix_ne_ok hLength (hDrop ▸ hPayload) hCut)
  | error e =>
      rcases decode_error_cases hDecode with ⟨cause, rfl⟩ | rfl
      · exact ⟨cause, rfl⟩
      · obtain ⟨hHeader, -, hNewer, -⟩ := decode_eq_unsupportedVersion_iff.mp hDecode
        obtain ⟨-, -, hSame, -⟩ := header_append hHeader behind
        rw [← hSame, hVersion] at hNewer
        exact absurd hNewer (UInt32.lt_irrefl version)

/-- What stands behind an archive is part of the payload as it is read, and spoils the digest
unless the two payloads collide under the hash. -/
theorem decode_append (options : ArchiveOptions) (behind : List UInt8) :
    decode options (encode p ++ behind) =
      if options.verifyChecksum ∧
          Blake3.hash (payload p ++ behind) ≠ Blake3.hash (payload p) then
        .error (.corrupt (.digestMismatch (Blake3.hash (payload p))
          (Blake3.hash (payload p ++ behind))))
      else decodePayload (payload p ++ behind) := by
  obtain ⟨hHeader, hMagic, hVersion, hDigest, hPayload⟩ := fields_encode p
  obtain ⟨hLonger, hMagic', hVersion', hDigest', hDrop⟩ := header_append hHeader behind
  have hZero : version ≠ 0 := by decide
  rw [decode_eq, if_neg (Nat.not_lt.mpr hLonger), hMagic', hMagic, if_neg (not_not_intro rfl),
    hVersion', hVersion, if_neg hZero, if_neg (UInt32.lt_irrefl version), hDigest', hDigest,
    hDrop, hPayload]

/-- Archives delimit themselves. No proper part of an archive from its beginning on and nothing
longer than it is accepted, whatever the options are. If the digest is not looked at, the bytes
that are too many are named as the reason. -/
theorem only_whole_archives_accepted (hSize : (payload p).length ≤ payloadLimit) :
    (∀ options front, front <+: encode p → front ≠ encode p →
      ∃ cause, decode options front = .error (.corrupt cause)) ∧
    ∀ options behind, behind ≠ [] → (payload p).length + behind.length ≤ payloadLimit →
      (∃ cause, decode options (encode p ++ behind) = .error (.corrupt cause)) ∧
      (options.verifyChecksum = false →
        ∃ e, decode options (encode p ++ behind) = .error e ∧
          e = .corrupt (.trailingBytes behind.length) ∧
          e.message = s!"Corrupt encoding: {behind.length} trailing bytes after payload") := by
  have hLength : (payload p).length < UInt64.size := Nat.lt_of_le_of_lt hSize (by decide)
  refine ⟨fun options front => decode_prefix hLength, fun options behind hBehind hWhole => ?_⟩
  rw [decode_append, decodePayload_append hBehind hWhole]
  constructor
  · split
    · exact ⟨_, rfl⟩
    · exact ⟨_, rfl⟩
  · intro hUnverified
    have hSkipped : ¬(options.verifyChecksum = true ∧
        Blake3.hash (payload p ++ behind) ≠ Blake3.hash (payload p)) := by
      rintro ⟨hVerified, -⟩
      rw [hUnverified] at hVerified
      cases hVerified
    rw [if_neg hSkipped]
    exact ⟨_, rfl, rfl, rfl⟩

/-- A loop that was doubled, with its last byte taken away and with a byte more. -/
theorem only_whole_archives_accepted_doubledRecursion :
    let p := Program.doubledRecursion
    (payload p).length ≤ payloadLimit ∧
      (∃ cause, decode {} (encode p).dropLast = .error (.corrupt cause)) ∧
      decode { verifyChecksum := false } (encode p ++ [0]) =
        .error (.corrupt (.trailingBytes 1)) := by
  intro p
  have hSize : (payload p).length < payloadLimit := by decide +kernel
  obtain ⟨hCut, hExtended⟩ := only_whole_archives_accepted (Nat.le_of_lt hSize)
  refine ⟨Nat.le_of_lt hSize, hCut _ _ (List.dropLast_prefix _) fun h => ?_, ?_⟩
  · have hShorter := congrArg List.length h
    rw [List.length_dropLast, length_encode] at hShorter
    have hHeader : headerLength = 40 := rfl
    omega
  · obtain ⟨-, hReason⟩ :=
      hExtended { verifyChecksum := false } [0] (List.cons_ne_nil _ _) hSize
    obtain ⟨e, hDecode, rfl, -⟩ := hReason rfl
    exact hDecode

end Disassembly.Archive
