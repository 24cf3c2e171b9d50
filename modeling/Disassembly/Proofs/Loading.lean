import Disassembly.Document
import Disassembly.Proofs.ConsistencyCheck
import Disassembly.Proofs.Linked

/-! How loading ends. Whatever is handed out went through the check of every rule and then had
its derived lists rebuilt, and a failure is told by the header, the digest or the content. -/
namespace Disassembly

namespace Program

/-- Leaving out what is derived a second time changes nothing. -/
theorem stored_stored (p : Program) : p.stored.stored = p.stored := by
  simp [stored, Function.comp_def, Module.stored, BlockGraph.stored, SymbolTable.stored]

theorem sameContent_relink_stored (p : Program) : p.stored.relink.sameContent p = true := by
  rw [sameContent, stored_relink, stored_stored]
  exact decide_eq_true rfl

theorem wellFormed_relink {p : Program} (h : p.WellFormed) : p.relink.WellFormed := by
  rw [← wellFormed_stored_iff, stored_relink, wellFormed_stored_iff]
  exact h

end Program

namespace Archive

/-- Only content that keeps every rule is handed out, and with everything derived from it
rebuilt. -/
theorem accept_eq_ok_iff {p q : Program} : accept p = .ok q ↔ p.WellFormed ∧ q = p.relink := by
  rw [accept, Checks.mapError_eq_ok, Program.accept_eq_ok_iff]

/-- The content of a program that keeps every rule is taken over. -/
theorem accept_stored {p : Program} (h : p.WellFormed) :
    accept p.stored = .ok p.stored.relink :=
  accept_eq_ok_iff.mpr ⟨Program.wellFormed_stored_iff.mpr h, rfl⟩

/-- A program that is taken over keeps every rule, with its derived lists as they were rebuilt. -/
theorem wellFormed_of_accept {p q : Program} (h : accept p = .ok q) : q.WellFormed := by
  obtain ⟨hWellFormed, rfl⟩ := accept_eq_ok_iff.mp h
  exact Program.wellFormed_relink hWellFormed

/-- A refusal names the first rule that is broken. -/
theorem accept_eq_error_iff {p : Program} {e : Error} :
    accept p = .error e ↔ ∃ violation, p.check = .error violation ∧
      e = .corrupt (.inconsistent violation) := by
  unfold accept Program.accept
  cases p.check with
  | ok u =>
      change Except.ok _ = Except.error e ↔ _
      simp
  | error violation =>
      change Except.error _ = Except.error e ↔ _
      simp [eq_comm]

/-- A payload that is taken over was read to its end. -/
theorem exists_readPayload_of_decodePayload {bytes : List UInt8} {q : Program}
    (h : decodePayload bytes = .ok q) :
    ∃ p, readPayload (some (budget bytes.length)) bytes = some (p, bytes.length) ∧
      accept p = .ok q := by
  unfold decodePayload at h
  split at h
  · cases h
  · rename_i p taken hRead
    split at h
    · cases h
    · rename_i hTaken
      cases Decidable.not_not.mp hTaken
      exact ⟨p, hRead, h⟩

/-- The payload alone never raises the question of the version. -/
theorem corrupt_of_decodePayload {bytes : List UInt8} {e : Error}
    (h : decodePayload bytes = .error e) : ∃ cause, e = .corrupt cause := by
  unfold decodePayload at h
  split at h
  · cases h
    exact ⟨_, rfl⟩
  · rename_i p taken hRead
    split at h
    · cases h
      exact ⟨_, rfl⟩
    · obtain ⟨violation, -, rfl⟩ := accept_eq_error_iff.mp h
      exact ⟨_, rfl⟩

/-- The field of the header that holds the version. -/
def versionField (bytes : List UInt8) : UInt32 :=
  UInt32.ofNat (ofLittleEndian ((bytes.drop 4).take 4))

/-- The field of the header that holds the digest. -/
def digestField (bytes : List UInt8) : List UInt8 := (bytes.drop 8).take 32

/-- The steps of decoding in order: each failure is about the first step that goes wrong. -/
theorem decode_eq (options : ArchiveOptions) (bytes : List UInt8) : decode options bytes =
    if bytes.length < headerLength then .error (.corrupt (.truncatedHeader bytes.length))
    else if bytes.take 4 ≠ magic then .error (.corrupt (.badMagic (bytes.take 4)))
    else if versionField bytes = 0 then .error (.corrupt .versionZero)
    else if version < versionField bytes then
      .error (.unsupportedVersion (versionField bytes) version)
    else if options.verifyChecksum ∧
        Blake3.hash (bytes.drop headerLength) ≠ digestField bytes then
      .error (.corrupt (.digestMismatch (digestField bytes)
        (Blake3.hash (bytes.drop headerLength))))
    else decodePayload (bytes.drop headerLength) := rfl

/-- With a header that is in order the payload decides. -/
theorem decode_of_header {options : ArchiveOptions} {bytes : List UInt8}
    (hLength : headerLength ≤ bytes.length) (hMagic : bytes.take 4 = magic)
    (hVersion : versionField bytes = version)
    (hDigest : Blake3.hash (bytes.drop headerLength) = digestField bytes) :
    decode options bytes = decodePayload (bytes.drop headerLength) := by
  have hZero : version ≠ 0 := by decide
  rw [decode_eq, if_neg (Nat.not_lt.mpr hLength), if_neg (not_not_intro hMagic), hVersion,
    if_neg hZero, if_neg (UInt32.lt_irrefl version), if_neg fun h => h.2 hDigest]

/-- Behind a header that is let through, the payload decides. -/
theorem decodePayload_of_decode {options : ArchiveOptions} {bytes : List UInt8} {q : Program}
    (h : decode options bytes = .ok q) :
    headerLength ≤ bytes.length ∧ decodePayload (bytes.drop headerLength) = .ok q := by
  rw [decode_eq] at h
  split at h
  · cases h
  rename_i hLength
  iterate 4
    split at h
    · cases h
  exact ⟨Nat.not_lt.mp hLength, h⟩

theorem exists_accept_of_decode {options : ArchiveOptions} {bytes : List UInt8} {q : Program}
    (h : decode options bytes = .ok q) : ∃ p, accept p = .ok q := by
  obtain ⟨-, hPayload⟩ := decodePayload_of_decode h
  obtain ⟨p, -, hAccept⟩ := exists_readPayload_of_decodePayload hPayload
  exact ⟨p, hAccept⟩

theorem decode_error_cases {options : ArchiveOptions} {bytes : List UInt8} {e : Error}
    (h : decode options bytes = .error e) :
    (∃ cause, e = .corrupt cause) ∨ e = .unsupportedVersion (versionField bytes) version := by
  rw [decode_eq] at h
  iterate 3
    split at h
    · exact .inl ⟨_, (Except.error.inj h).symm⟩
  split at h
  · exact .inr (Except.error.inj h).symm
  split at h
  · exact .inl ⟨_, (Except.error.inj h).symm⟩
  · exact .inl (corrupt_of_decodePayload h)

/-- The version is refused before the digest and the payload are looked at, and for no other
reason than that it is too new. -/
theorem decode_eq_unsupportedVersion_iff {options : ArchiveOptions} {bytes : List UInt8}
    {found supported : UInt32} :
    decode options bytes = .error (.unsupportedVersion found supported) ↔
      headerLength ≤ bytes.length ∧ bytes.take 4 = magic ∧ version < versionField bytes ∧
        found = versionField bytes ∧ supported = version := by
  rw [decode_eq]
  constructor
  · intro h
    split at h
    · cases h
    rename_i hLength
    split at h
    · cases h
    rename_i hMagic
    split at h
    · cases h
    split at h
    · rename_i hVersion
      cases h
      exact ⟨Nat.not_lt.mp hLength, Decidable.not_not.mp hMagic, hVersion, rfl, rfl⟩
    split at h
    · cases h
    · obtain ⟨cause, hCause⟩ := corrupt_of_decodePayload h
      cases hCause
  · rintro ⟨hLength, hMagic, hVersion, rfl, rfl⟩
    have hZero : versionField bytes ≠ 0 := by
      intro hZero
      rw [hZero] at hVersion
      exact absurd hVersion (by decide)
    rw [if_neg (Nat.not_lt.mpr hLength), if_neg (not_not_intro hMagic), if_neg hZero,
      if_pos hVersion]

end Archive

theorem Document.exists_accept_of_decode {text : String} {q : Program}
    (h : decode text = .ok q) : ∃ p, Archive.accept p = .ok q := by
  unfold decode at h
  split at h
  · cases h
  · rename_i found p hRead
    split at h
    · cases h
    · exact ⟨p, h⟩

/-- Loading is exact. Stored content is taken over if and only if it keeps every rule, and then
as it is. Whatever archives and documents give keeps every rule, and an archive that is refused
is corrupt or of a version that its header names as newer, under all options alike. -/
theorem loading_exact :
    (∀ p : Program, (∃ q, p.accept = .ok q) ↔ p.WellFormed) ∧
    (∀ p q : Program, p.accept = .ok q → q.stored = p.stored) ∧
    (∀ options bytes q, Archive.decode options bytes = .ok q → q.WellFormed) ∧
    (∀ text q, Document.decode text = .ok q → q.WellFormed) ∧
    (∀ options bytes e, Archive.decode options bytes = .error e →
      (∃ cause, e = .corrupt cause) ∨ ∃ found supported, e = .unsupportedVersion found supported) ∧
    ∀ options bytes found supported,
      Archive.decode options bytes = .error (.unsupportedVersion found supported) ↔
        Archive.headerLength ≤ bytes.length ∧ bytes.take 4 = Archive.magic ∧
          Archive.version < Archive.versionField bytes ∧
          found = Archive.versionField bytes ∧ supported = Archive.version := by
  refine ⟨fun p => ?_, fun p q hAccept => ?_, fun options bytes q hDecode => ?_,
    fun text q hDecode => ?_, fun options bytes e hDecode => ?_,
    fun options bytes found supported => Archive.decode_eq_unsupportedVersion_iff⟩
  · constructor
    · rintro ⟨q, hAccept⟩
      exact (Program.accept_eq_ok_iff.mp hAccept).1
    · exact fun h => ⟨p.relink, Program.accept_eq_ok_iff.mpr ⟨h, rfl⟩⟩
  · obtain ⟨-, rfl⟩ := Program.accept_eq_ok_iff.mp hAccept
    exact p.stored_relink
  · obtain ⟨p, hAccept⟩ := Archive.exists_accept_of_decode hDecode
    exact Archive.wellFormed_of_accept hAccept
  · obtain ⟨p, hAccept⟩ := Document.exists_accept_of_decode hDecode
    exact Archive.wellFormed_of_accept hAccept
  · exact (Archive.decode_error_cases hDecode).imp_right fun h => ⟨_, _, h⟩

/-- An entry point that names no block is turned down, and so is the header of a later version
with nothing behind it. -/
theorem loading_exact_refusals :
    (¬∃ q, Program.accept { modules := [
        { Module.build { name := "m" } default default with entryPoint := some ⟨default, 0⟩ }] } =
      .ok q) ∧
    Archive.decode {} (Archive.magic ++ littleEndian 4 2 ++ List.replicate 32 0) =
      .error (.unsupportedVersion 2 1) := by
  obtain ⟨hRules, -, -, -, -, hVersion⟩ := loading_exact
  refine ⟨fun h => ?_, (hVersion _ _ _ _).mpr (by decide)⟩
  obtain ⟨b, hb, -⟩ := (((hRules _).mp h).modules _ (List.mem_cons_self ..)).entryPoint _ rfl
  cases hb

end Disassembly
