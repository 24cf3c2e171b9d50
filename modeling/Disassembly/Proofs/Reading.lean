import Disassembly.Wire

/-! Readers told by what they take off the front and how much memory they claim. A reader that
yields a value does so whatever stands behind the bytes that it takes, and under every budget
that has room for what it claims. -/
namespace Disassembly

namespace Reader

variable {α β : Type}

/-- The reader takes exactly the bytes `used`, claims `cost` bytes of memory and gives `a`. -/
def Yields (r : Reader α) (used : List UInt8) (cost : Nat) (a : α) : Prop :=
  ∀ rest budget, (∀ left, budget = some left → cost ≤ left) →
    r ⟨used ++ rest, budget⟩ = some (a, ⟨rest, budget.map (· - cost)⟩)

theorem yields_pure (a : α) : (pure a : Reader α).Yields [] 0 a := by
  intro rest budget _
  change some (a, Cursor.mk rest budget) = _
  cases budget <;> rfl

/-- Readers in sequence take and claim one after the other. -/
theorem Yields.bind {r : Reader α} {f : α → Reader β} {used used' : List UInt8}
    {cost cost' : Nat} {a : α} {b : β} (hr : r.Yields used cost a)
    (hf : (f a).Yields used' cost' b) : (r >>= f).Yields (used ++ used') (cost + cost') b := by
  intro rest budget hRoom
  have hFirst := hr (used' ++ rest) budget fun left hLeft => by
    have := hRoom left hLeft
    omega
  have hSecond := hf rest (budget.map (· - cost)) fun left hLeft => by
    obtain ⟨whole, hWhole, rfl⟩ := Option.map_eq_some_iff.mp hLeft
    have := hRoom whole hWhole
    omega
  change (r ⟨used ++ used' ++ rest, budget⟩).bind (fun ac => f ac.1 ac.2) = _
  rw [List.append_assoc, hFirst]
  change f a _ = _
  rw [hSecond, Option.map_map]
  congr 3
  cases budget with
  | none => rfl
  | some left => simp [Nat.sub_sub]

/-- What only computes behind a reader neither takes nor claims anything. -/
theorem Yields.followed {r : Reader α} {f : α → Reader β} {used : List UInt8} {cost : Nat}
    {a : α} {b : β} (h : r.Yields used cost a) (hf : (f a).Yields [] 0 b) :
    (r >>= f).Yields used cost b := by
  have hBoth := h.bind hf
  rwa [List.append_nil, Nat.add_zero] at hBoth

/-- A value that is computed from what is read takes and claims nothing more. -/
theorem Yields.map {r : Reader α} {used : List UInt8} {cost : Nat} {a : α} (g : α → β)
    (h : r.Yields used cost a) : Yields (do return g (← r)) used cost (g a) :=
  h.followed (yields_pure (g a))

theorem yields_lift {o : Option α} {a : α} (h : o = some a) :
    Yields (StateT.lift o : Reader α) [] 0 a := by
  subst h
  exact yields_pure a

/-- A claim that the budget has room for takes no bytes. -/
theorem yields_claim (n : Nat) : (claim n).Yields [] n () := by
  intro rest budget hRoom
  cases budget with
  | none => rfl
  | some left => simp [claim, hRoom left rfl]

/-- A claim adds to the cost and takes nothing. -/
theorem Yields.claimed {r : Reader α} {used : List UInt8} {cost : Nat} {a : α} (n : Nat)
    (h : r.Yields used cost a) : Yields (do claim n; r) used (n + cost) a :=
  (yields_claim n).bind h

/-- One byte is taken off the front. -/
theorem yields_byte (b : UInt8) : byte.Yields [b] 0 b := by
  intro rest budget _
  change some (b, Cursor.mk rest budget) = _
  cases budget <;> rfl

theorem yields_byte_bind {f : UInt8 → Reader α} {b : UInt8} {used : List UInt8} {cost : Nat}
    {a : α} (h : (f b).Yields used cost a) : (byte >>= f).Yields (b :: used) cost a := by
  have hBoth := (yields_byte b).bind h
  rwa [Nat.zero_add] at hBoth

/-- As many bytes are taken as there are in the list. -/
theorem yields_take (l : List UInt8) : (take l.length).Yields l 0 l := by
  intro rest budget _
  cases budget <;> simp [take]

end Reader

section Numbers

theorem length_littleEndian (width n : Nat) : (littleEndian width n).length = width := by
  induction width generalizing n with
  | zero => rfl
  | succ width ih => rw [littleEndian, List.length_cons, ih]

/-- A number comes back from its bytes, as far as these have room for it. -/
theorem ofLittleEndian_littleEndian (width n : Nat) :
    ofLittleEndian (littleEndian width n) = n % Nat.pow 256 width := by
  induction width generalizing n with
  | zero => simp [littleEndian, ofLittleEndian, Nat.mod_one]
  | succ width ih =>
      have hDigit : (UInt8.ofNat n).toNat = n % 256 := by simp
      have hPower : Nat.pow 256 (width + 1) = 256 * Nat.pow 256 width := Nat.mul_comm _ _
      rw [littleEndian, ofLittleEndian, ih, hDigit, hPower, Nat.mod_mul]

open Reader

/-- A number that the width has room for is read back from so many bytes. -/
theorem yields_littleEndian {width n : Nat} (h : n < Nat.pow 256 width) :
    Yields (do return ofLittleEndian (← take width)) (littleEndian width n) 0 n := by
  have hTake := (yields_take (littleEndian width n)).map ofLittleEndian
  rwa [length_littleEndian, ofLittleEndian_littleEndian, Nat.mod_eq_of_lt h] at hTake

/-- Every number takes a byte at least. -/
theorem writeVarint_ne_nil (n : Nat) : writeVarint n ≠ [] := by
  unfold writeVarint
  split
  · simp
  split
  · simp
  split <;> simp

/-- What is read of a number behind its first byte. -/
def varintBehind (wide : Bool) (mark : UInt8) : Reader Nat :=
  if mark < 251 then
    return mark.toNat
  else if mark = 251 then
    return ofLittleEndian (← take 2)
  else if mark = 252 then
    return ofLittleEndian (← take 4)
  else if mark = 253 && wide then
    return ofLittleEndian (← take 8)
  else failure

/-- The first byte says how the number goes on. -/
theorem yields_readVarint_of_behind {wide : Bool} {mark : UInt8} {used : List UInt8} {n : Nat}
    (h : (varintBehind wide mark).Yields used 0 n) :
    (readVarint wide).Yields (mark :: used) 0 n :=
  yields_byte_bind h

/-- A number is read back from its shortest form, if the reader takes forms so wide. -/
theorem yields_readVarint (wide : Bool) {n : Nat} (h : n < UInt64.size)
    (hWide : wide = false → n < UInt32.size) :
    (readVarint wide).Yields (writeVarint n) 0 n := by
  unfold writeVarint
  by_cases hByte : n < 251
  · have hValue : (UInt8.ofNat n).toNat = n := by
      rw [UInt8.toNat_ofNat']
      omega
    have hSmall : UInt8.ofNat n < 251 := by
      rw [UInt8.lt_iff_toNat_lt, hValue]
      exact hByte
    rw [if_pos hByte]
    apply yields_readVarint_of_behind
    rw [varintBehind, if_pos hSmall, hValue]
    exact yields_pure n
  rw [if_neg hByte]
  by_cases hShort : n < UInt16.size
  · rw [if_pos hShort]
    exact yields_readVarint_of_behind (yields_littleEndian hShort)
  rw [if_neg hShort]
  by_cases hWord : n < UInt32.size
  · rw [if_pos hWord]
    exact yields_readVarint_of_behind (yields_littleEndian hWord)
  · rw [if_neg hWord]
    cases wide with
    | false => exact absurd (hWide rfl) hWord
    | true => exact yields_readVarint_of_behind (yields_littleEndian h)

/-- Signed numbers come back from the numbers that they are written as. -/
theorem unzigzag_zigzag (v : Int) : unzigzag (zigzag v) = v := by
  unfold zigzag unzigzag
  split <;> split <;> omega

/-- A signed number of 64 bits is written as one without a sign of the same width. -/
theorem zigzag_lt (v : Int64) : zigzag v.toInt < UInt64.size := by
  have hLow := v.le_toInt
  have hHigh := v.toInt_lt
  unfold zigzag
  change _ < 2 ^ 64
  split <;> omega

end Numbers

end Disassembly
