import Disassembly.Proofs.ArchiveRoundTrip
import Disassembly.Proofs.FormModel
import Disassembly.Proofs.Reachable

/-! Documents of programs are read back, and end as archives of the same programs do: with the
check of the stored content, which does not depend on what is derived from it. -/
namespace Disassembly

namespace Document

theorem faithful_envelope : envelope.Faithful fun e => (e.1, e.2.stored) :=
  (Json.Form.faithful_word32.field.and Program.faithful_form.field).record (by decide)

/-- What a faithful form writes is read back from its text. -/
theorem read_text {α : Type} {f : Json.Form α} {keep : α → α} (h : f.Faithful keep)
    {l : Json.Layout} (hl : l.Plain) (a : α) :
    (Json.parse? (Json.text l (f.write a)).toList).bind f.read = some (keep a) := by
  rw [Json.text, String.toList_ofList, Json.parse?_render hl (h.spelled a), Option.bind_some,
    h.reads]

/-- Reading the document of a program comes down to the check of its content. -/
theorem decode_encode (p : Program) : decode (encode p) = Archive.accept p.stored := by
  unfold decode encode
  rw [read_text faithful_envelope Json.Layout.plain_indented]
  exact if_neg (UInt32.lt_irrefl Archive.version)

/-- A module that is written alone is read without what is derived from its content. -/
theorem readModule?_text {l : Json.Layout} (hl : l.Plain) (m : Module) :
    readModule? (Json.text l (Module.form.write m)) = some m.stored :=
  read_text Module.faithful_form hl m

end Document

namespace Program

theorem checkDistinct_stored (earlier modules : List Module) :
    checkDistinct (earlier.map Module.stored) (modules.map Module.stored) =
      checkDistinct earlier modules := by
  induction modules generalizing earlier with
  | nil => rfl
  | cons m rest ih =>
      have hRest := ih (earlier ++ [m])
      rw [List.map_append] at hRest
      simp only [List.map_cons, checkDistinct, List.any_map]
      exact congrArg _ (congrArg _ hRest)

/-- The check looks at the stored content alone, down to the rule that it names. -/
theorem check_stored (p : Program) : p.stored.check = p.check := by
  have hDistinct : checkDistinct [] (p.modules.map Module.stored) = checkDistinct [] p.modules :=
    checkDistinct_stored [] p.modules
  have hModules : (p.modules.map Module.stored).forM
      (fun m => m.check.mapError (Violation.inModule m.name)) =
        p.modules.forM fun m => m.check.mapError (Violation.inModule m.name) := by
    rw [List.forM_eq_forM, List.forM_map]
    rfl
  simp only [check, stored, hDistinct, hModules]

end Program

/-- The two stored forms agree on every program, whatever it holds. Either both give a program
with the same content, or both name the first rule that the content breaks. -/
theorem document_agrees_with_archive {p : Program}
    (hSize : (Archive.payload p).length ≤ Archive.payloadLimit) :
    Document.decode (Document.encode p) = Archive.decode {} (Archive.encode p) ∧
    ((∃ q, Document.decode (Document.encode p) = .ok q) ↔ p.check = .ok ()) ∧
    (∀ q, Document.decode (Document.encode p) = .ok q → q.sameContent p = true) ∧
    ∀ e, Document.decode (Document.encode p) = .error e →
      ∃ violation, p.check = .error violation ∧ e = .corrupt (.inconsistent violation) := by
  rw [Document.decode_encode, Archive.decode_encode {} hSize]
  refine ⟨rfl, ?_, fun q hAccept => ?_, fun e hAccept => ?_⟩
  · constructor
    · rintro ⟨q, hAccept⟩
      have hWellFormed := (Archive.accept_eq_ok_iff.mp hAccept).1
      exact Program.check_eq_ok_iff.mpr (Program.wellFormed_stored_iff.mp hWellFormed)
    · exact fun h => ⟨_, Archive.accept_stored (Program.check_eq_ok_iff.mp h)⟩
  · obtain ⟨-, rfl⟩ := Archive.accept_eq_ok_iff.mp hAccept
    exact p.sameContent_relink_stored
  · rw [← p.check_stored]
    exact Archive.accept_eq_error_iff.mp hAccept

/-- A program that holds one module twice, which its rules forbid. -/
def Program.repeatedModule : Program where
  modules := [.recursion default default, .recursion default default]

/-- A program comes back in both forms, and one that breaks a rule in neither. -/
theorem document_agrees_with_archive_repeatedModule :
    (∃ q, Document.decode (Document.encode Program.doubledRecursion) = .ok q ∧
      Archive.decode {} (Archive.encode Program.doubledRecursion) = .ok q) ∧
    ∃ e, Document.decode (Document.encode Program.repeatedModule) = .error e ∧
      Archive.decode {} (Archive.encode Program.repeatedModule) = .error e := by
  have hSize : (Archive.payload Program.doubledRecursion).length ≤ Archive.payloadLimit := by
    decide +kernel
  have hSize' : (Archive.payload Program.repeatedModule).length ≤ Archive.payloadLimit := by
    decide +kernel
  obtain ⟨hAgree, hLoads, -⟩ := document_agrees_with_archive hSize
  obtain ⟨hAgree', hLoads', -⟩ := document_agrees_with_archive hSize'
  rw [← hAgree, ← hAgree']
  constructor
  · obtain ⟨q, hRead⟩ := hLoads.mpr (by decide +kernel)
    exact ⟨q, hRead, hRead⟩
  · cases hRead : Document.decode (Document.encode Program.repeatedModule) with
    | ok q => exact absurd (hLoads'.mp ⟨q, hRead⟩) (by decide +kernel)
    | error e => exact ⟨e, rfl, rfl⟩

end Disassembly
