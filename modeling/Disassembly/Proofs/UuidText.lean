import Disassembly.Proofs.Numerals
import Disassembly.Uuid

/-! The text of an identifier is read back. Of the four layouts in which a text may be given,
it is in that of five groups with hyphens and in no other. -/
namespace Disassembly.Uuid

/-- The groups are found between their hyphens. -/
theorem ofGroups?_groups {a b c d e : List Char} (ha : a.length = 8) (hb : b.length = 4)
    (hc : c.length = 4) (hd : d.length = 4) (he : e.length = 12) :
    ofGroups? (a ++ '-' :: b ++ '-' :: c ++ '-' :: d ++ '-' :: e) =
      ofDigits? (a ++ b ++ c ++ d ++ e) := by
  unfold ofGroups?
  rw [if_pos]
  · simp [List.drop_append, ha, hb, hc, hd, List.drop_eq_nil_of_le]
  · simp [ha, hb, hc, hd, he]

/-- The digits of the sixteen bytes give the identifier again. -/
theorem ofDigits?_ofBytes (u : Uuid) : ofDigits? (Hex.ofBytes u.bytes) = some u := by
  rw [ofDigits?, Hex.bytes?_ofBytes]
  exact dif_pos u.length_bytes

/-- The groups hold the bytes in their order. -/
theorem ofBytes_groups {bytes : List UInt8} (h : bytes.length = 16) :
    Hex.ofBytes ((bytes.drop 0).take 4) ++ Hex.ofBytes ((bytes.drop 4).take 2) ++
      Hex.ofBytes ((bytes.drop 6).take 2) ++ Hex.ofBytes ((bytes.drop 8).take 2) ++
      Hex.ofBytes ((bytes.drop 10).take 6) = Hex.ofBytes bytes := by
  have hCut (i n : Nat) : bytes.drop i = (bytes.drop i).take n ++ bytes.drop (i + n) := by
    rw [← List.drop_drop, List.take_append_drop]
  have hEnd : bytes.drop 16 = [] := List.drop_eq_nil_of_le (Nat.le_of_eq h)
  have hWhole : bytes = (bytes.drop 0).take 4 ++ (bytes.drop 4).take 2 ++
      (bytes.drop 6).take 2 ++ (bytes.drop 8).take 2 ++ (bytes.drop 10).take 6 := by
    conv =>
      lhs
      rw [← List.drop_zero (l := bytes), hCut 0 4, hCut 4 2, hCut 6 2, hCut 8 2, hCut 10 6, hEnd]
    simp
  simp only [Hex.ofBytes, ← List.flatMap_append]
  rw [← hWhole]

theorem ofGroups?_chars (u : Uuid) : ofGroups? u.chars = some u := by
  have hLength := u.length_bytes
  have hGroup (i n : Nat) (h : i + n ≤ 16) :
      (Hex.ofBytes ((u.bytes.drop i).take n)).length = 2 * n := by
    rw [Hex.length_ofBytes, List.length_take, List.length_drop]
    omega
  change ofGroups? (_ ++ '-' :: _ ++ '-' :: _ ++ '-' :: _ ++ '-' :: _) = _
  rw [ofGroups?_groups (hGroup 0 4 (by decide)) (hGroup 4 2 (by decide)) (hGroup 6 2 (by decide))
    (hGroup 8 2 (by decide)) (hGroup 10 6 (by decide)), ofBytes_groups hLength, ofDigits?_ofBytes]

/-- The text begins with eight digits and a hyphen, and has 36 characters. -/
theorem exists_chars_eq (u : Uuid) : ∃ first digits rest,
    (∃ d, d < 16 ∧ first = Nat.digitChar d) ∧ digits.length = 7 ∧ rest.length = 27 ∧
      u.chars = first :: digits ++ '-' :: rest := by
  have hLength := u.length_bytes
  have hGroup : (Hex.ofBytes ((u.bytes.drop 0).take 4)).length = 7 + 1 := by
    simp [Hex.length_ofBytes, hLength]
  obtain ⟨first, digits, hDigits⟩ := List.exists_cons_of_length_eq_add_one hGroup
  have hChars : u.chars = Hex.ofBytes ((u.bytes.drop 0).take 4) ++ '-' ::
      (Hex.ofBytes ((u.bytes.drop 4).take 2) ++ '-' :: Hex.ofBytes ((u.bytes.drop 6).take 2) ++
        '-' :: Hex.ofBytes ((u.bytes.drop 8).take 2) ++
        '-' :: Hex.ofBytes ((u.bytes.drop 10).take 6)) := by
    simp [chars]
  rw [hDigits] at hChars hGroup
  refine ⟨first, digits, _, ?_, Nat.succ.inj hGroup, ?_, hChars⟩
  · exact Hex.exists_digit_of_mem_ofBytes (hDigits ▸ List.mem_cons_self ..)
  · simp [Hex.length_ofBytes, hLength]

/-- The text has none of the marks of the three other layouts, so it is read by its groups. -/
theorem ofText?_text (u : Uuid) : ofText? u.text = some u := by
  obtain ⟨first, digits, rest, ⟨d, hd, hFirst⟩, hDigits, hRest, hChars⟩ := exists_chars_eq u
  have hBrace : ¬u.chars.head? = some '\x7b' := by
    intro hHead
    have hDigit := Hex.digit?_digitChar d hd
    rw [hChars] at hHead
    rw [← hFirst, Option.some.inj hHead] at hDigit
    cases hDigit
  have hMark : ¬(u.chars.take 9).map Char.toLower = namespaceMark := by
    intro hTake
    have hNinth : ((u.chars.take 9).map Char.toLower)[8]? = some ':' := by
      rw [hTake]
      decide
    rw [hChars] at hNinth
    simp [hDigits] at hNinth
  have hLength : ¬u.chars.length = 32 := by
    rw [hChars, List.length_append, List.length_cons, List.length_cons, hDigits, hRest]
    decide
  unfold ofText? text
  rw [String.toList_ofList]
  simp only [hBrace, hMark, hLength, false_and, if_false]
  exact ofGroups?_chars u

end Disassembly.Uuid
