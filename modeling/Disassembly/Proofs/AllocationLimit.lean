import Disassembly.Proofs.Extent
import Disassembly.Proofs.Metering

/-! The budget for reading a payload does no harm and does its work. What a payload can make a
reader claim is bounded by its length and always within the budget, so that the same is read with
the budget and without one. A length that promises more than there is ends the reading, wherever
in the payload it stands. -/
namespace Disassembly

namespace Reader

variable {α β : Type}

/-- From a cursor, the reader comes to a length that promises at least `size` bytes, with the
second cursor behind it. The length is that of a text or of plain bytes, or it counts items of
which each takes a number of bytes at least. -/
inductive Promises : {α : Type} → Reader α → Cursor → Nat → Cursor → Prop where
  | bytes {start behind : Cursor} {n : Nat}
      (count : Wire.length.read start = some (n, behind)) :
      Promises Wire.bytes.read start n behind
  | items {α : Type} {w : Wire α} {start behind : Cursor} {n least : Nat}
      (takes : w.read.Delimited fun used _ => least ≤ used.length)
      (count : Wire.length.read start = some (n, behind)) :
      Promises w.list.read start (n * least) behind
  | first {α β : Type} {r : Reader α} {f : α → Reader β} {start behind : Cursor} {size : Nat}
      (promise : Promises r start size behind) : Promises (r >>= f) start size behind
  | later {α β : Type} {r : Reader α} {f : α → Reader β} {start middle behind : Cursor} {a : α}
      {size : Nat} (prior : r start = some (a, middle)) (onward : middle.bytes <:+ start.bytes)
      (promise : Promises (f a) middle size behind) : Promises (r >>= f) start size behind

theorem Delimited.suffix {fits : List UInt8 → α → Prop} {r : Reader α} (h : Delimited fits r)
    {start stop : Cursor} {a : α} (hRead : r start = some (a, stop)) :
    stop.bytes <:+ start.bytes := by
  obtain ⟨used, hBytes, -⟩ := h _ _ _ _ _ hRead
  exact ⟨used, hBytes.symm⟩

/-- A reader that takes more bytes than there are gives nothing. -/
theorem Delimited.eq_none {fits : List UInt8 → α → Prop} {r : Reader α} (h : Delimited fits r)
    {start : Cursor} (hFits : ∀ used a, fits used a → start.bytes.length < used.length) :
    r start = none := by
  cases hRead : r start with
  | none => rfl
  | some ac =>
      obtain ⟨used, hBytes, hUsed, -⟩ := h _ _ _ _ _ hRead
      have hLonger := hFits _ _ hUsed
      rw [show start.bytes = used ++ _ from hBytes, List.length_append] at hLonger
      omega

theorem Promises.suffix {r : Reader α} {start behind : Cursor} {size : Nat}
    (h : Promises r start size behind) : behind.bytes <:+ start.bytes := by
  induction h with
  | bytes count => exact Wire.concise_length.suffix count
  | items takes count => exact Wire.concise_length.suffix count
  | first promise ih => exact ih
  | later prior onward promise ih => exact ih.trans onward

/-- A promise that the bytes behind it cannot keep is the end of the reading. -/
theorem Promises.eq_none {r : Reader α} {start behind : Cursor} {size : Nat}
    (h : Promises r start size behind) (hShort : behind.bytes.length < size) :
    r start = none := by
  induction h with
  | @bytes start behind n count =>
      change (Wire.length.read start).bind _ = none
      rw [count]
      refine ((delimited_take n).claimed n).eq_none fun used l hTaken => ?_
      rwa [hTaken.1, hTaken.2]
  | @items α w start behind n least takes count =>
      change (Wire.length.read start).bind _ = none
      rw [count]
      refine (delimited_many (fun _ => least) takes n []).eq_none ?_
      rintro used l ⟨new, -, rfl, hTaken⟩
      rw [List.map_const', List.sum_replicate_nat] at hTaken
      exact Nat.lt_of_lt_of_le hShort hTaken
  | @first α β r f start behind size promise ih =>
      change (r start).bind _ = none
      rw [ih hShort, Option.bind_none]
  | @later α β r f start middle behind a size prior onward promise ih =>
      change (r start).bind _ = none
      rw [prior]
      exact ih hShort

end Reader

namespace Archive

open Reader

/-- The budget is what a payload of that length asks for at most, rounded up. -/
theorem claims_le_budget {n : Nat} (h : n ≤ payloadLimit) : n * 16 + 4096 ≤ budget n := by
  change n ≤ 16777216 at h
  unfold budget
  dsimp only
  split
  · omega
  split
  · omega
  split <;> omega

/-- A payload that can be read without a budget claims a certain number of bytes, and can be
read under exactly those budgets that are not below it. -/
theorem exists_claimed {content rest : List UInt8} {p : Program} {after : Option Nat}
    (h : Program.wire.read ⟨content, none⟩ = some (p, ⟨rest, after⟩)) :
    ∃ claimed, claimed ≤ content.length * 16 + 4096 ∧
      ∀ limit, Program.wire.read ⟨content, limit⟩ =
        (charge claimed limit).map fun left => (p, ⟨rest, left⟩) := by
  rcases Program.metered_wire content with hFails | ⟨q, rest', taken, cost, hFair, hTaken, hReads⟩
  · rw [hFails] at h
    cases h
  · have hSame := (hReads none).symm.trans h
    cases hSame
    have hCost := hFair.1
    exact ⟨cost, by omega, hReads⟩

/-- Within the size that a payload may have, its budget makes no difference. -/
theorem readPayload_budget {content : List UInt8} (hSize : content.length ≤ payloadLimit) :
    readPayload (some (budget content.length)) content = readPayload none content := by
  have hRoom := claims_le_budget hSize
  generalize budget content.length = limit at hRoom ⊢
  rcases Program.metered_wire content with hFails | ⟨q, rest, taken, cost, hFair, hTaken, hReads⟩
  · rw [readPayload, readPayload, hFails, hFails]
  · have hCost := hFair.1
    have hCharge : charge cost (some limit) = some (some (limit - cost)) := if_pos (by omega)
    rw [readPayload, readPayload, hReads, hReads, hCharge]
    rfl

/-- A length that promises more than the payload holds, or more than the whole budget, is
reported as damage, also if only reading without a budget would come to it. -/
theorem decodePayload_of_promises {content : List UInt8} {limit : Option Nat} {size : Nat}
    {behind : Cursor} (hSize : content.length ≤ payloadLimit)
    (hLimit : limit = none ∨ limit = some (budget content.length))
    (h : Promises Program.wire.read ⟨content, limit⟩ size behind)
    (hShort : budget content.length < size ∨ behind.bytes.length < size) :
    decodePayload content = .error (.corrupt .unreadable) := by
  have hBehind : behind.bytes.length ≤ content.length := h.suffix.length_le
  have hRoom := claims_le_budget hSize
  have hMore : behind.bytes.length < size := by
    rcases hShort with hLimit | hContent
    · omega
    · exact hContent
  have hRead : readPayload limit content = none := by
    rw [readPayload, h.eq_none hMore, Option.map_none]
  have hLimited : readPayload (some (budget content.length)) content = none := by
    rcases hLimit with rfl | rfl
    · rw [readPayload_budget hSize, hRead]
    · exact hRead
  unfold decodePayload
  rw [hLimited]

/-- The budget is transparent. Payloads of up to sixteen MiB are read with it as they are without
one, since what they can claim stays below it. And it is not needed to keep a length from
promising too much: the reading ends there, whether the length passes the budget or only the
bytes that are left. -/
theorem allocation_limit_transparent {content : List UInt8}
    (hSize : content.length ≤ payloadLimit) :
    (∀ p taken, readPayload (some (budget content.length)) content = some (p, taken) ↔
      readPayload none content = some (p, taken)) ∧
    (∀ p rest after, Program.wire.read ⟨content, none⟩ = some (p, ⟨rest, after⟩) →
      ∃ claimed, claimed ≤ content.length * 16 + 4096 ∧
        ∀ limit, Program.wire.read ⟨content, limit⟩ =
          (charge claimed limit).map fun left => (p, ⟨rest, left⟩)) ∧
    content.length * 16 + 4096 ≤ budget content.length ∧
    ∀ limit size behind, limit = none ∨ limit = some (budget content.length) →
      Promises Program.wire.read ⟨content, limit⟩ size behind →
      budget content.length < size ∨ behind.bytes.length < size →
      decodePayload content = .error (.corrupt .unreadable) := by
  refine ⟨fun p taken => ?_, fun p rest after => exists_claimed, claims_le_budget hSize,
    fun limit size behind => decodePayload_of_promises hSize⟩
  rw [readPayload_budget hSize]

/-- No modules and one table, whose name is said to be as long as a word can tell. -/
def forgedLength : List UInt8 := [0, 1, 253] ++ littleEndian 8 (UInt64.size - 1)

theorem promises_forgedLength : Promises Program.wire.read ⟨forgedLength, some (budget 11)⟩
    (UInt64.size - 1) ⟨[], some (budget 11 - 24)⟩ := by
  have hModules : Module.wire.list.read ⟨forgedLength, some (budget 11)⟩ =
      some ([], ⟨forgedLength.drop 1, some (budget 11 - 8)⟩) := rfl
  have hTables : Wire.length.read ⟨forgedLength.drop 1, some (budget 11 - 8)⟩ =
      some (1, ⟨forgedLength.drop 2, some (budget 11 - 16)⟩) := rfl
  have hName : Wire.length.read ⟨forgedLength.drop 2, some (budget 11 - 16)⟩ =
      some (UInt64.size - 1, ⟨[], some (budget 11 - 24)⟩) := rfl
  refine .first (.later hModules ⟨[0], rfl⟩ (.first (.first (.later hTables ⟨[1], rfl⟩ ?_))))
  exact .first (.first (.first (.bytes hName)))

/-- As many modules as one byte can tell, and nothing behind their number. -/
def forgedCount : List UInt8 := [250]

theorem promises_forgedCount :
    Promises Program.wire.read ⟨forgedCount, none⟩ (250 * 1) ⟨[], none⟩ :=
  .first (.first (.items (Module.concise_wire.takes Module.faithful_wire) rfl))

/-- A payload of nothing, in numbers wider than they need to be, and two with a forged length:
one passes the budget, and one only what the payload holds. -/
theorem allocation_limit_transparent_forgedLength :
    let wide : List UInt8 := [251, 0, 0, 252, 0, 0, 0, 0]
    (wide.length ≤ payloadLimit ∧
      readPayload (some (budget wide.length)) wide = some ({}, wide.length)) ∧
    (forgedLength.length ≤ payloadLimit ∧
      decodePayload forgedLength = .error (.corrupt .unreadable)) ∧
    forgedCount.length ≤ payloadLimit ∧
      decodePayload forgedCount = .error (.corrupt .unreadable) := by
  intro wide
  have hWide : wide.length ≤ payloadLimit := by decide
  have hLength : forgedLength.length ≤ payloadLimit := by decide
  have hCount : forgedCount.length ≤ payloadLimit := by decide
  obtain ⟨hSame, -⟩ := allocation_limit_transparent hWide
  obtain ⟨-, -, -, hPassesBudget⟩ := allocation_limit_transparent hLength
  obtain ⟨-, -, -, hPassesContent⟩ := allocation_limit_transparent hCount
  refine ⟨⟨hWide, (hSame _ _).mpr (by decide +kernel)⟩, ⟨hLength, ?_⟩, hCount, ?_⟩
  · exact hPassesBudget _ _ _ (.inr rfl) promises_forgedLength (.inl (by decide))
  · exact hPassesContent _ _ _ (.inl rfl) promises_forgedCount (.inr (by decide))

end Archive

end Disassembly
