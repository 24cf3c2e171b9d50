import Disassembly.Json.Token
import Disassembly.Proofs.Numerals

/-! Texts between quotes. An escaped text is unescaped to itself, and between its quotes there
is nothing that could end it early. -/
namespace Disassembly.Json

/-- A control character is written as the four digits of its number. -/
theorem nat?_control : ∀ n, n < 0x20 →
    Hex.nat? ('0' :: '0' :: Hex.ofByte (UInt8.ofNat n)) = some n := by decide

/-- The three ways in which a character is written. -/
theorem escapeChar_cases (c : Char) :
    (∃ letter, shortEscape? letter = some c ∧ escapeChar c = ['\\', letter]) ∨
    (c.toNat < 0x20 ∧
      escapeChar c = '\\' :: 'u' :: '0' :: '0' :: Hex.ofByte (UInt8.ofNat c.toNat)) ∨
    (c ≠ '"' ∧ c ≠ '\\' ∧ ¬c.toNat < 0x20 ∧ escapeChar c = [c]) := by
  unfold escapeChar
  split
  · exact .inl ⟨'"', rfl, rfl⟩
  · exact .inl ⟨'\\', rfl, rfl⟩
  · exact .inl ⟨'n', rfl, rfl⟩
  · exact .inl ⟨'r', rfl, rfl⟩
  · exact .inl ⟨'t', rfl, rfl⟩
  · exact .inl ⟨'b', rfl, rfl⟩
  · exact .inl ⟨'f', rfl, rfl⟩
  · rename_i hQuote hBackslash _ _ _ _ _
    by_cases hControl : c.toNat < 0x20
    · exact .inr (.inl ⟨hControl, if_pos hControl⟩)
    · exact .inr (.inr ⟨hQuote, hBackslash, hControl, if_neg hControl⟩)

/-- An escape of one letter is the character that the letter stands for. -/
theorem pieces?_short {letter c : Char} (h : shortEscape? letter = some c) (rest : List Char) :
    pieces? ('\\' :: letter :: rest) = (pieces? rest).map (.char c :: ·) := by
  have hLetter : letter ≠ 'u' := by
    rintro rfl
    cases h
  rw [pieces?]
  · rw [h]
    cases pieces? rest <;> rfl
  · intro _ _ _ _ _ hUnit
    exact absurd hUnit hLetter

/-- An escape of four digits is a unit. Whether it is a character by itself is not settled here. -/
theorem pieces?_unit {a b c d : Char} {n : Nat} (h : Hex.nat? [a, b, c, d] = some n)
    (rest : List Char) :
    pieces? ('\\' :: 'u' :: a :: b :: c :: d :: rest) = (pieces? rest).map (.unit n :: ·) := by
  rw [pieces?, h]
  cases pieces? rest <;> rfl

/-- A character that starts no escape stands for itself. -/
theorem pieces?_plain {c : Char} (h : c ≠ '\\') (rest : List Char) :
    pieces? (c :: rest) = (pieces? rest).map (.char c :: ·) := by
  rw [pieces?]
  · rw [if_neg h]
    cases pieces? rest <;> rfl
  · intro _ _ _ _ _ hUnit
    exact absurd hUnit h
  · intro _ _ hShort
    exact absurd hShort h

/-- A unit below the surrogates is a character by itself. -/
theorem joinPieces_unit {n : Nat} (h : n < 0xd800) (pieces : List Piece) :
    joinPieces (.unit n :: pieces) = (joinPieces pieces).map (Char.ofNat n :: ·) := by
  have hSingle : n < 0xd800 ∨ 0xe000 ≤ n := .inl h
  rw [joinPieces.eq_def (.unit n :: pieces)]
  simp only [hSingle, if_true]
  cases joinPieces pieces <;> rfl

/-- Each character is written as one part, and that part stands for it. -/
theorem exists_piece (c : Char) : ∃ piece,
    (∀ rest, pieces? (escapeChar c ++ rest) = (pieces? rest).map (piece :: ·)) ∧
      ∀ pieces, joinPieces (piece :: pieces) = (joinPieces pieces).map (c :: ·) := by
  have hJoin : ∀ pieces, joinPieces (.char c :: pieces) = (joinPieces pieces).map (c :: ·) := by
    intro pieces
    rw [joinPieces]
    cases joinPieces pieces <;> rfl
  rcases escapeChar_cases c with ⟨letter, hShort, hEq⟩ | ⟨hControl, hEq⟩ | ⟨-, hPlain, -, hEq⟩
  · rw [hEq]
    exact ⟨.char c, pieces?_short hShort, hJoin⟩
  · rw [hEq]
    refine ⟨.unit c.toNat, pieces?_unit (nat?_control c.toNat hControl), fun pieces => ?_⟩
    rw [joinPieces_unit (by omega), Char.ofNat_toNat]
  · rw [hEq]
    exact ⟨.char c, pieces?_plain hPlain, hJoin⟩

/-- An escaped text is unescaped to itself, whatever its characters. By induction on the text, with
one part for each character. -/
theorem unescape?_escape (s : List Char) : unescape? (escape s) = some s := by
  have hPieces : ∃ pieces, pieces? (escape s) = some pieces ∧ joinPieces pieces = some s := by
    induction s with
    | nil => exact ⟨[], rfl, rfl⟩
    | cons c rest ih =>
        obtain ⟨pieces, hSpelled, hJoined⟩ := ih
        obtain ⟨piece, hPiece, hJoin⟩ := exists_piece c
        refine ⟨piece :: pieces, ?_, ?_⟩
        · rw [escape, List.flatMap_cons, hPiece]
          change (pieces? (escape rest)).map _ = _
          rw [hSpelled]
          rfl
        · rw [hJoin, hJoined]
          rfl
  obtain ⟨pieces, hSpelled, hJoined⟩ := hPieces
  rw [unescape?, hSpelled]
  exact hJoined

namespace Token

/-- Between two quotes the text is taken as it is. -/
def Quotable (written : List Char) : Prop :=
  ∀ read done, written.foldlM step (.text read, done) = some (.text (written.reverse ++ read), done)

theorem quotable_nil : Quotable [] := fun _ _ => rfl

/-- What is quotable on both sides is so together, since the state between the quotes is the same
after each part. -/
theorem Quotable.append {a b : List Char} (ha : Quotable a) (hb : Quotable b) :
    Quotable (a ++ b) := by
  intro read done
  rw [List.foldlM_append, ha]
  change b.foldlM step _ = _
  rw [hb, List.reverse_append, List.append_assoc]

/-- A character is quotable if it is no quote, no backslash and no control character. -/
theorem quotable_plain {c : Char} (hQuote : c ≠ '"') (hBackslash : c ≠ '\\')
    (hControl : ¬c.toNat < 0x20) : Quotable [c] := by
  intro read done
  simp [step, hQuote, hBackslash, hControl]

/-- A text of such characters is quotable. -/
theorem quotable_of_plain {written : List Char}
    (h : ∀ c ∈ written, c ≠ '"' ∧ c ≠ '\\' ∧ ¬c.toNat < 0x20) : Quotable written := by
  induction written with
  | nil => exact quotable_nil
  | cons c rest ih =>
      obtain ⟨hQuote, hBackslash, hControl⟩ := h c (List.mem_cons_self ..)
      have hRest := ih fun d hd => h d (List.mem_cons_of_mem _ hd)
      exact (quotable_plain hQuote hBackslash hControl).append hRest

theorem quotable_short {letter c : Char} (h : shortEscape? letter = some c) :
    Quotable ['\\', letter] := by
  intro read done
  have hLetter : letter ≠ 'u' := by
    rintro rfl
    cases h
  simp [step, hLetter, h]

/-- A digit of a unit is taken as it is, and the last one that is due ends the unit. -/
theorem step_digit {c : Char} {d : Nat} (h : Hex.digit? c = some d) (due : Nat)
    (read : List Char) (done : List Token) :
    step (.unit due read, done) c =
      if due ≤ 1 then some (.text (c :: read), done)
      else some (.unit (due - 1) (c :: read), done) := by
  simp [step, h]

/-- An escape with four digits is quotable, whatever the digits. -/
theorem quotable_unit {a b c d : Char} {i j k l : Nat} (ha : Hex.digit? a = some i)
    (hb : Hex.digit? b = some j) (hc : Hex.digit? c = some k) (hd : Hex.digit? d = some l) :
    Quotable ['\\', 'u', a, b, c, d] := by
  intro read done
  have hBackslash : step (.text read, done) '\\' = some (.escape ('\\' :: read), done) := rfl
  have hMark : step (.escape ('\\' :: read), done) 'u' =
      some (.unit 4 ('u' :: '\\' :: read), done) := rfl
  simp [hBackslash, hMark, step_digit ha, step_digit hb, step_digit hc, step_digit hd]

theorem quotable_control (n : Nat) :
    Quotable ('\\' :: 'u' :: '0' :: '0' :: Hex.ofByte (UInt8.ofNat n)) := by
  have hByte : (UInt8.ofNat n).toNat < 256 := UInt8.toNat_lt _
  exact quotable_unit (Hex.digit?_digitChar 0 (by decide)) (Hex.digit?_digitChar 0 (by decide))
    (Hex.digit?_digitChar _ (by omega)) (Hex.digit?_digitChar _ (by omega))

/-- Each character is written in a quotable way. -/
theorem quotable_escapeChar (c : Char) : Quotable (escapeChar c) := by
  rcases escapeChar_cases c with ⟨letter, hShort, hEq⟩ | ⟨-, hEq⟩ | ⟨hQ, hB, hC, hEq⟩
  · exact hEq ▸ quotable_short hShort
  · exact hEq ▸ quotable_control c.toNat
  · exact hEq ▸ quotable_plain hQ hB hC

/-- An escaped text is quotable: no quote that it holds can end it early. -/
theorem quotable_escape (s : List Char) : Quotable (escape s) := by
  induction s with
  | nil => exact quotable_nil
  | cons c rest ih => exact (quotable_escapeChar c).append ih

end Token

end Disassembly.Json
