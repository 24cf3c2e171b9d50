import Disassembly.Json
import Mathlib.Data.List.TakeWhile

/-! Numbers as texts. The digits of a number are read back as that number, in decimal and in
hexadecimal, and the written form of a number is a numeral without a needless zero in front. -/
namespace Disassembly

/-- Reading digit by digit gives the number back, if each step is right. -/
theorem foldlM_toDigits {base : Nat} (hBase : 1 < base) {step : Nat → Char → Option Nat}
    (hStep : ∀ n d, d < base → step n (Nat.digitChar d) = some (base * n + d)) (n : Nat) :
    (Nat.toDigits base n).foldlM step 0 = some n := by
  induction n using Nat.strongRecOn with
  | ind n ih =>
      by_cases hSmall : n < base
      · rw [Nat.toDigits_of_lt_base hSmall]
        simp [hStep 0 n hSmall]
      · have hRest : n / base < n := Nat.div_lt_self (by omega) hBase
        have hDigit : n % base < base := Nat.mod_lt n (by omega)
        rw [Nat.toDigits_of_base_le hBase (Nat.not_lt.mp hSmall), List.foldlM_append, ih _ hRest]
        simp [hStep _ _ hDigit, Nat.div_add_mod]

/-- A positive number is written with a first digit that is not zero. -/
theorem exists_toDigits_eq_cons {base n : Nat} (hBase : 1 < base) (hn : 0 < n) :
    ∃ d rest, 0 < d ∧ d < base ∧ Nat.toDigits base n = Nat.digitChar d :: rest := by
  induction n using Nat.strongRecOn with
  | ind n ih =>
      by_cases hSmall : n < base
      · exact ⟨n, [], hn, hSmall, Nat.toDigits_of_lt_base hSmall⟩
      · have hRest : n / base < n := Nat.div_lt_self hn hBase
        obtain ⟨d, rest, hPos, hDigit, hEq⟩ := ih _ hRest (Nat.div_pos (by omega) (by omega))
        refine ⟨d, rest ++ [Nat.digitChar (n % base)], hPos, hDigit, ?_⟩
        rw [Nat.toDigits_of_base_le hBase (Nat.not_lt.mp hSmall), hEq, List.cons_append]

/-- Only digits of the base are written. -/
theorem exists_digit_of_mem_toDigits {base n : Nat} (hBase : 1 < base) {c : Char}
    (h : c ∈ Nat.toDigits base n) : ∃ d, d < base ∧ c = Nat.digitChar d := by
  induction n using Nat.strongRecOn with
  | ind n ih =>
      by_cases hSmall : n < base
      · rw [Nat.toDigits_of_lt_base hSmall] at h
        exact ⟨n, hSmall, List.mem_singleton.mp h⟩
      · have hRest : n / base < n := Nat.div_lt_self (by omega) hBase
        rw [Nat.toDigits_of_base_le hBase (Nat.not_lt.mp hSmall)] at h
        rcases List.mem_append.mp h with hFront | hLast
        · exact ih _ hRest hFront
        · exact ⟨n % base, Nat.mod_lt n (by omega), List.mem_singleton.mp hLast⟩

namespace Hex

/-- Each of the sixteen digits is read as what it stands for. -/
theorem digit?_digitChar : ∀ d, d < 16 → digit? (Nat.digitChar d) = some d := by decide

theorem length_ofBytes (bytes : List UInt8) : (ofBytes bytes).length = 2 * bytes.length := by
  induction bytes with
  | nil => rfl
  | cons b rest ih =>
      change (ofBytes rest).length + 2 = 2 * (rest.length + 1)
      omega

/-- There is nothing but hexadecimal digits in the text of some bytes. -/
theorem exists_digit_of_mem_ofBytes {bytes : List UInt8} {c : Char} (h : c ∈ ofBytes bytes) :
    ∃ d, d < 16 ∧ c = Nat.digitChar d := by
  obtain ⟨b, -, hc⟩ := List.mem_flatMap.mp h
  have hByte := b.toNat_lt
  rcases List.mem_cons.mp hc with hHigh | hc
  · exact ⟨b.toNat / 16, by omega, hHigh⟩
  · exact ⟨b.toNat % 16, by omega, List.mem_singleton.mp hc⟩

/-- A number in hexadecimal digits is read back. -/
theorem nat?_toDigits (n : Nat) : nat? (Nat.toDigits 16 n) = some n := by
  refine foldlM_toDigits (by decide) (fun m d hd => ?_) n
  rw [digit?_digitChar d hd]
  rfl

/-- Two digits for each byte give the bytes again. -/
theorem bytes?_ofBytes (bytes : List UInt8) : bytes? (ofBytes bytes) = some bytes := by
  induction bytes with
  | nil => rfl
  | cons b rest ih =>
      have hByte := b.toNat_lt
      have hHigh : digit? (Nat.digitChar (b.toNat / 16)) = some (b.toNat / 16) :=
        digit?_digitChar _ (by omega)
      have hLow : digit? (Nat.digitChar (b.toNat % 16)) = some (b.toNat % 16) :=
        digit?_digitChar _ (by omega)
      change bytes? (Nat.digitChar (b.toNat / 16) :: Nat.digitChar (b.toNat % 16) ::
        ofBytes rest) = _
      have hWhole : UInt8.ofNat (16 * (b.toNat / 16) + b.toNat % 16) = b := by
        rw [Nat.div_add_mod, UInt8.ofNat_toNat]
      rw [bytes?, hHigh, hLow, ih]
      change some (UInt8.ofNat (16 * (b.toNat / 16) + b.toNat % 16) :: rest) = _
      rw [hWhole]

end Hex

namespace Json

theorem isDigit_of_mem_decimal {n : Nat} {c : Char} (h : c ∈ decimal n) : c.isDigit = true :=
  Nat.isDigit_of_mem_toDigits (by decide) (by decide) h

/-- The digits of a number are those of zero alone, or begin with another one. -/
theorem decimal_cases (n : Nat) :
    n = 0 ∧ decimal n = ['0'] ∨ 0 < n ∧ ∃ c rest, c ≠ '0' ∧ c.isDigit = true ∧
      (∀ d ∈ rest, d.isDigit = true) ∧ decimal n = c :: rest := by
  rcases Nat.eq_zero_or_pos n with rfl | hPos
  · exact .inl ⟨rfl, Nat.toDigits_zero 10⟩
  · obtain ⟨d, rest, hFirst, hDigit, hEq⟩ := exists_toDigits_eq_cons (by decide : 1 < 10) hPos
    have hAll : ∀ c ∈ Nat.digitChar d :: rest, c.isDigit = true :=
      fun c hc => isDigit_of_mem_decimal (hEq ▸ hc)
    refine .inr ⟨hPos, Nat.digitChar d, rest, ?_, hAll _ (List.mem_cons_self ..),
      fun c hc => hAll c (List.mem_cons_of_mem _ hc), hEq⟩
    rw [Ne, Nat.digitChar_eq_zero]
    omega

/-- Digits that do not begin with a zero are read from the front to the end. -/
theorem nat?_eq_foldlM {c : Char} {rest : List Char} (h : c ≠ '0') :
    nat? (c :: rest) = (c :: rest).foldlM
      (fun n c => if c.isDigit then some (10 * n + (c.toNat - 48)) else none) 0 := by
  unfold nat?
  split
  · rename_i hNil
    cases hNil
  · rename_i hZero
    exact absurd (List.cons.inj hZero).1 h
  · rename_i hZero
    exact absurd (List.cons.inj hZero).1 h
  · rfl

/-- A number in decimal digits is read back. Zero is a case of its own, because no other number may
begin with it. -/
theorem nat?_decimal (n : Nat) : nat? (decimal n) = some n := by
  rcases decimal_cases n with ⟨rfl, hEq⟩ | ⟨-, c, rest, hFirst, -, -, hEq⟩
  · rw [hEq]
    rfl
  · rw [hEq, nat?_eq_foldlM hFirst, ← hEq]
    refine foldlM_toDigits (by decide) (fun m d hd => ?_) n
    simp [hd, Nat.toNat_digitChar_sub_48_of_lt_ten hd]

theorem skipDigits?_cons {c : Char} {rest : List Char} (hc : c.isDigit = true)
    (hRest : ∀ d ∈ rest, d.isDigit = true) : skipDigits? (c :: rest) = some [] := by
  have hNone : rest.dropWhile Char.isDigit = [] := List.dropWhile_eq_nil_iff.mpr hRest
  simp [skipDigits?, hc, hNone]

/-- Digits that do not begin with a zero are a numeral, with a sign in front or without. -/
theorem isNumeral_of_digits {c : Char} {rest : List Char} (hFirst : c ≠ '0')
    (hc : c.isDigit = true) (hRest : ∀ d ∈ rest, d.isDigit = true) :
    isNumeral (c :: rest) = true ∧ isNumeral ('-' :: c :: rest) = true := by
  have hMinus : ¬some c = some '-' := by
    rintro ⟨⟩
    cases hc
  unfold isNumeral
  simp only [List.head?_cons, hMinus, if_false, if_true, List.tail_cons]
  split
  · rename_i hZero
    exact absurd (List.cons.inj hZero).1 hFirst
  · rw [skipDigits?_cons hc hRest]
    decide

theorem isNumeral_decimal (n : Nat) : isNumeral (decimal n) = true := by
  rcases decimal_cases n with ⟨-, hEq⟩ | ⟨-, c, rest, hFirst, hc, hRest, hEq⟩
  · rw [hEq]
    decide
  · rw [hEq]
    exact (isNumeral_of_digits hFirst hc hRest).1

theorem isNumeral_neg_decimal (n : Nat) : isNumeral ('-' :: decimal n) = true := by
  rcases decimal_cases n with ⟨-, hEq⟩ | ⟨-, c, rest, hFirst, hc, hRest, hEq⟩
  · rw [hEq]
    decide
  · rw [hEq]
    exact (isNumeral_of_digits hFirst hc hRest).2

/-- The digits of a number begin with a digit, so with no sign. -/
theorem head?_decimal_ne {n : Nat} {c : Char} (h : c.isDigit = false) :
    (decimal n).head? ≠ some c := by
  intro hHead
  have hDigit := isDigit_of_mem_decimal (List.mem_of_head? hHead)
  rw [h] at hDigit
  cases hDigit

/-- A number in decimal digits is read as an integer that is not negative. -/
theorem int?_decimal (n : Nat) : int? (decimal n) = some (n : Int) := by
  unfold int?
  split
  · rename_i digits hEq
    exact absurd (hEq ▸ rfl) (head?_decimal_ne (n := n) (by decide : '-'.isDigit = false))
  · rw [nat?_decimal]
    rfl

/-- With a sign in front it is read as a negative one, if it is not zero. -/
theorem int?_neg_decimal {n : Nat} (h : 0 < n) : int? ('-' :: decimal n) = some (-(n : Int)) := by
  have hNonzero : n ≠ 0 := Nat.ne_of_gt h
  simp [int?, nat?_decimal, hNonzero]

end Json

end Disassembly
