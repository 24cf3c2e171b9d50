import Disassembly.Proofs.DocumentRoundTrip

/-! The version of a stored program. An archive of another version than the current one is turned
down for its version alone, before anything behind the header is looked at. A document is first
read as a whole: one of a newer version is known as such only if its program is laid out as in
the current version, and version zero is taken for the current one. -/
namespace Disassembly

open Json

namespace Archive

/-- What is wrong with an archive of another version. -/
def versionError (found : UInt32) : Error :=
  if found = 0 then .corrupt .versionZero else .unsupportedVersion found version

/-- Zero is the only version below the current one. -/
theorem version_lt {found : UInt32} (h : found ≠ version) (hZero : found ≠ 0) :
    version < found := by
  rw [UInt32.lt_iff_toNat_lt]
  have hOne : found.toNat ≠ 1 := fun hSame => h (UInt32.toNat_inj.mp hSame)
  have hNone : found.toNat ≠ 0 := fun hSame => hZero (UInt32.toNat_inj.mp hSame)
  change 1 < found.toNat
  omega

/-- Behind the mark, the version settles what is said of an archive that is not current. -/
theorem decode_of_version_ne {options : ArchiveOptions} {bytes : List UInt8}
    (hLength : headerLength ≤ bytes.length) (hMagic : bytes.take 4 = magic)
    (hOther : versionField bytes ≠ version) :
    decode options bytes = .error (versionError (versionField bytes)) := by
  rw [decode_eq, if_neg (Nat.not_lt.mpr hLength), if_neg (not_not_intro hMagic), versionError]
  by_cases hZero : versionField bytes = 0
  · rw [if_pos hZero, if_pos hZero]
  · rw [if_neg hZero, if_neg hZero, if_pos (version_lt hOther hZero)]

end Archive

namespace Document

/-- The text is an object that names a version and holds a body, each of them once. What else the
object has makes no difference. -/
def Holds (text : String) (found : UInt32) (body : Json) : Prop :=
  ∃ members written, Json.parse? text.toList = some (.object members) ∧
    fields? ["format_version", "ir"] false (.object members) = some [some written, some body] ∧
    Form.word32.read written = some found

/-- The body is read before the version counts. -/
theorem decode_of_holds {text : String} {found : UInt32} {body : Json}
    (h : Holds text found body) : decode text =
      match Program.form.read body with
      | none => .error (.corrupt .unreadable)
      | some p =>
        if Archive.version < found then .error (.unsupportedVersion found Archive.version)
        else Archive.accept p := by
  obtain ⟨members, written, hParse, hFields, hVersion⟩ := h
  have hRead : (Json.parse? text.toList).bind envelope.read =
      (Program.form.read body).map fun p => (found, p) := by
    rw [hParse, Option.bind_some]
    change (fields? ["format_version", "ir"] false (.object members)).bind _ = _
    rw [hFields, Option.bind_some]
    change (Form.word32.read written).bind _ = _
    rw [hVersion, Option.bind_some, Option.map_eq_bind]
    rfl
  unfold decode
  rw [hRead]
  cases Program.form.read body <;> rfl

/-- The envelope of a document around a body of any form. -/
def envelopeOf {α : Type} (f : Form α) : Form (UInt32 × α) :=
  .record ((Record.field "format_version" .word32).and (.field "ir" f))

/-- Whatever can be written down may stand as the body of a document. -/
theorem holds_text {α : Type} {f : Form α} {keep : α → α} (h : f.Faithful keep) {l : Layout}
    (hl : l.Plain) (found : UInt32) (a : α) :
    Holds (Json.text l ((envelopeOf f).write (found, a))) found (f.write a) := by
  have hNames : ["format_version", "ir"].Nodup := by decide
  have hRecord : (envelopeOf f).Faithful fun e => (e.1, keep e.2) :=
    (Form.faithful_word32.field.and h.field).record hNames
  have hFields : fields? ["format_version", "ir"] false ((envelopeOf f).write (found, a)) =
      some [some (Form.word32.write found), some (f.write a)] :=
    Form.fields?_object hNames rfl false
  refine ⟨_, _, ?_, hFields, Form.faithful_word32.reads found⟩
  rw [Json.text, String.toList_ofList, Json.parse?_render hl (hRecord.spelled (found, a))]
  rfl

/-- The two stored forms agree on a version that is not the current one only in part. Archives
are turned down for it whatever else they hold, zero as damage and a newer version as such.
A document of a newer version is known as such exactly if its body is a program, and is damaged
otherwise. One of version zero is taken as it would be under the current version. -/
theorem version_gates {text : String} {found : UInt32} {body : Json}
    (hText : Holds text found body) (hOther : found ≠ Archive.version) :
    (∀ options bytes, Archive.headerLength ≤ bytes.length → bytes.take 4 = Archive.magic →
      Archive.versionField bytes = found →
        Archive.decode options bytes = .error (Archive.versionError found)) ∧
    (decode text = .error (.unsupportedVersion found Archive.version) ↔
      found ≠ 0 ∧ ∃ p, Program.form.read body = some p) ∧
    (found ≠ 0 → Program.form.read body = none → decode text = .error (.corrupt .unreadable)) ∧
    (found = 0 → ∀ current, Holds current Archive.version body → decode text = decode current) := by
  refine ⟨fun options bytes hLength hMagic hVersion => ?_, ?_, fun _ hBody => ?_, ?_⟩
  · subst hVersion
    exact Archive.decode_of_version_ne hLength hMagic hOther
  · rw [decode_of_holds hText]
    cases hBody : Program.form.read body with
    | none => simp
    | some p =>
        by_cases hZero : found = 0
        · subst hZero
          have hAccept : Archive.accept p ≠ .error (.unsupportedVersion 0 Archive.version) := by
            intro h
            obtain ⟨violation, -, hCause⟩ := Archive.accept_eq_error_iff.mp h
            cases hCause
          simpa using hAccept
        · simp [Archive.version_lt hOther hZero, hZero]
  · rw [decode_of_holds hText, hBody]
  · rintro rfl current hCurrent
    rw [decode_of_holds hText, decode_of_holds hCurrent]
    rfl

/-- The document of an empty program, with zero as its version. -/
def zeroText : String := Json.text .compact ((envelopeOf Program.form).write (0, {}))

/-- A document of the second version, with a body that is no program as it is laid out now. -/
def secondText : String := Json.text .compact ((envelopeOf Form.bool).write (2, true))

/-- In the archive both versions are turned down for what they are. In the document the one is
taken over and the other is damage. -/
theorem version_gates_disagree :
    let archive (v : Nat) := Archive.magic ++ littleEndian 4 v ++ List.replicate 32 0
    (Archive.decode {} (archive 0) = .error (.corrupt .versionZero) ∧
      Holds zeroText 0 (Program.form.write {}) ∧ decode zeroText = .ok {}) ∧
    Archive.decode {} (archive 2) = .error (.unsupportedVersion 2 Archive.version) ∧
      Holds secondText 2 (.bool true) ∧ decode secondText = .error (.corrupt .unreadable) :=
  ⟨⟨by decide +kernel, holds_text Program.faithful_form Layout.plain_compact 0 {},
      by decide +kernel⟩,
    by decide +kernel, holds_text Form.faithful_bool Layout.plain_compact 2 true,
      by decide +kernel⟩

/-- The same texts, as the general statement has them. -/
theorem version_gates_texts :
    Holds secondText 2 (.bool true) ∧ (2 : UInt32) ≠ Archive.version ∧
      decode secondText = .error (.corrupt .unreadable) ∧
    Holds zeroText 0 (Program.form.write {}) ∧ (0 : UInt32) ≠ Archive.version ∧
      decode zeroText = decode (encode {}) := by
  have hSecond := holds_text Form.faithful_bool Layout.plain_compact 2 true
  have hZero := holds_text Program.faithful_form Layout.plain_compact 0 {}
  obtain ⟨-, -, hDamaged, -⟩ := version_gates hSecond (by decide)
  obtain ⟨-, -, -, hCurrent⟩ := version_gates hZero (by decide)
  exact ⟨hSecond, by decide, hDamaged (by decide) rfl, hZero, by decide,
    hCurrent rfl _ (holds_text Program.faithful_form Layout.plain_indented Archive.version {})⟩

end Document

end Disassembly
