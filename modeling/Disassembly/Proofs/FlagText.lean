import Disassembly.Proofs.Numerals
import Disassembly.SectionFlags

/-! The text of a set of flags is read back. Its parts are found between the bars, each stands
for the flags it was written for, and these are all there are, bits without a name included. -/
namespace Disassembly

/-- The parts of a text are those of the library. -/
theorem splitAtEach_eq_splitOn (mark : Char) (cs : List Char) :
    splitAtEach mark cs = cs.splitOn mark := by
  induction cs with
  | nil => rfl
  | cons c rest ih =>
      rw [List.splitOn_cons_eq_if_modifyHead, splitAtEach, ih]
      by_cases h : c = mark
      · simp [h]
      · cases hParts : rest.splitOn mark with
        | nil => exact absurd hParts (List.splitOn_ne_nil mark rest)
        | cons first parts => simp [h]

/-- White space in front of anything else is dropped. -/
theorem dropWhile_blanks {front rest : List Char} {c : Char}
    (hFront : ∀ d ∈ front, isBlank d = true) (hc : isBlank c = false) :
    (front ++ c :: rest).dropWhile isBlank = c :: rest := by
  rw [List.dropWhile_append_of_pos hFront]
  simp [hc]

theorem trimBlanks_ne_nil {c : Char} (hc : isBlank c = false) (rest : List Char) :
    trimBlanks (c :: rest) ≠ [] := by
  intro h
  have hFront : (c :: rest).dropWhile isBlank = c :: rest := by simp [hc]
  rw [trimBlanks, hFront, List.reverse_eq_nil_iff, List.dropWhile_eq_nil_iff] at h
  have hBlank := h c (List.mem_reverse.mpr (List.mem_cons_self ..))
  rw [hc] at hBlank
  cases hBlank

namespace SectionFlags

/-- A part of the written form has neither white space nor a bar in it. -/
structure Solid (part : List Char) : Prop where
  ne_nil : part ≠ []
  plain : ∀ c ∈ part, isBlank c = false ∧ c ≠ '|'

/-- Blanks on both sides go and what is between them stays, blanks inside included. -/
theorem trimBlanks_padded {front part back : List Char} (h : Solid part)
    (hFront : ∀ c ∈ front, isBlank c = true) (hBack : ∀ c ∈ back, isBlank c = true) :
    trimBlanks (front ++ part ++ back) = part := by
  obtain ⟨first, rest, hFirst⟩ := List.exists_cons_of_ne_nil h.ne_nil
  obtain ⟨last, more, hLast⟩ :=
    List.exists_cons_of_ne_nil fun hNil => h.ne_nil (List.reverse_eq_nil_iff.mp hNil)
  have hSolidFirst : isBlank first = false :=
    (h.plain first (hFirst ▸ List.mem_cons_self ..)).1
  have hSolidLast : isBlank last = false :=
    (h.plain last (List.mem_reverse.mp (hLast ▸ List.mem_cons_self ..))).1
  have hDropFront : (front ++ part ++ back).dropWhile isBlank = part ++ back := by
    rw [hFirst, List.append_assoc, List.cons_append]
    exact dropWhile_blanks hFront hSolidFirst
  have hDropBack : (part ++ back).reverse.dropWhile isBlank = part.reverse := by
    rw [List.reverse_append, hLast]
    exact dropWhile_blanks (fun c hc => hBack c (List.mem_reverse.mp hc)) hSolidLast
  rw [trimBlanks, hDropFront, hDropBack, List.reverse_reverse]

theorem not_mem_padded {front part back : List Char} (h : Solid part)
    (hFront : ∀ c ∈ front, isBlank c = true) (hBack : ∀ c ∈ back, isBlank c = true) :
    '|' ∉ front ++ part ++ back := by
  intro hBar
  rcases List.mem_append.mp hBar with hBar | hBar
  · rcases List.mem_append.mp hBar with hBar | hBar
    · cases hFront _ hBar
    · exact (h.plain _ hBar).2 rfl
  · cases hBack _ hBar

/-- The parts are what is left between the bars when the white space is gone. -/
theorem map_trimBlanks_splitAtEach {front part : List Char} {parts : List (List Char)}
    (hFront : ∀ c ∈ front, isBlank c = true) (hPart : Solid part)
    (hParts : ∀ p ∈ parts, Solid p) :
    (splitAtEach '|' (front ++ [' ', '|', ' '].intercalate (part :: parts))).map trimBlanks =
      part :: parts := by
  have hSpace : ∀ c ∈ [' '], isBlank c = true := by simp [isBlank]
  induction parts generalizing front part with
  | nil =>
      have hNone : ∀ c ∈ ([] : List Char), isBlank c = true := nofun
      have hWhole := not_mem_padded hPart hFront hNone
      have hTrim := trimBlanks_padded hPart hFront hNone
      rw [List.append_nil] at hWhole hTrim
      rw [List.intercalate_singleton, splitAtEach_eq_splitOn, List.splitOn_eq_singleton hWhole,
        List.map_singleton, hTrim]
  | cons next rest ih =>
      -- The first bar ends the part with a blank behind it, and the rest begins with a blank.
      -- That is why the induction is for parts with blanks in front.
      have hSplit : front ++ [' ', '|', ' '].intercalate (part :: next :: rest) =
          (front ++ part ++ [' ']) ++ '|' ::
            ([' '] ++ [' ', '|', ' '].intercalate (next :: rest)) := by
        simp
      have hRest := ih hSpace (hParts next (List.mem_cons_self ..))
        fun p hp => hParts p (List.mem_cons_of_mem _ hp)
      rw [splitAtEach_eq_splitOn] at hRest
      rw [hSplit, splitAtEach_eq_splitOn,
        List.splitOn_append_cons_self_of_not_mem (not_mem_padded hPart hFront hSpace),
        List.map_cons, trimBlanks_padded hPart hFront hSpace, hRest]

/-- The parts of the written form, each with the flags that it stands for. -/
def parts (f : SectionFlags) : List (String × SectionFlags) :=
  (named.filter fun e => f.includes e.2) ++
    if f.unnamed = 0 then [] else [("0x" ++ Hex.ofNat f.unnamed.toNat, ⟨f.unnamed⟩)]

theorem text_eq_intercalate (f : SectionFlags) :
    f.text = String.intercalate " | " (f.parts.map Prod.fst) := by
  unfold text parts
  split <;> simp

/-- What a part of a written form must be: solid, and read as the flags it stands for. -/
def Readable (part : String × SectionFlags) : Prop :=
  Solid part.1.toList ∧ ofPart? part.1.toList = some part.2

theorem readable_named : ∀ e ∈ named, Readable e := by
  have hSolid : ∀ e ∈ named, e.1.toList ≠ [] ∧ ∀ c ∈ e.1.toList, isBlank c = false ∧ c ≠ '|' := by
    simp [named, isBlank]
  have hRead : ∀ e ∈ named, ofPart? e.1.toList = some e.2 := by decide
  exact fun e he => ⟨⟨(hSolid e he).1, (hSolid e he).2⟩, hRead e he⟩

/-- Digits are neither white space nor bars nor signs. -/
theorem plain_digitChar :
    ∀ d, d < 16 → isBlank (Nat.digitChar d) = false ∧ Nat.digitChar d ≠ '|' ∧
      Nat.digitChar d ≠ '+' := by
  decide

/-- A number in hexadecimal digits is a part that is read as itself. It stands for the bits without
a name. -/
theorem readable_number (n : UInt32) : Readable ("0x" ++ Hex.ofNat n.toNat, ⟨n⟩) := by
  have hChars : ("0x" ++ Hex.ofNat n.toNat).toList = '0' :: 'x' :: Nat.toDigits 16 n.toNat := by
    simp [Hex.ofNat]
  have hDigits : ∀ c ∈ Nat.toDigits 16 n.toNat, isBlank c = false ∧ c ≠ '|' ∧ c ≠ '+' := by
    intro c hc
    obtain ⟨d, hd, rfl⟩ := exists_digit_of_mem_toDigits (by decide) hc
    exact plain_digitChar d hd
  have hSign : ¬(Nat.toDigits 16 n.toNat).head? = some '+' :=
    fun hHead => (hDigits _ (List.mem_of_head? hHead)).2.2 rfl
  have hSmall : n.toNat < UInt32.size := n.toNat_lt
  constructor
  · rw [hChars]
    refine ⟨List.cons_ne_nil _ _, fun c hc => ?_⟩
    rcases List.mem_cons.mp hc with rfl | hc
    · decide
    rcases List.mem_cons.mp hc with rfl | hc
    · decide
    exact ⟨(hDigits c hc).1, (hDigits c hc).2.1⟩
  · rw [hChars]
    simp [ofPart?, hSign, Hex.nat?_toDigits, hSmall, Nat.toDigits_ne_nil]

/-- Every part that flags are written with is read back, whether it is a name or a number. -/
theorem readable_of_mem_parts {f : SectionFlags} {part : String × SectionFlags}
    (h : part ∈ f.parts) : Readable part := by
  rcases List.mem_append.mp h with hNamed | hNumber
  · exact readable_named part ((List.mem_filter.mp hNamed).1)
  · by_cases hNone : f.unnamed = 0
    · rw [if_pos hNone] at hNumber
      cases hNumber
    · rw [if_neg hNone] at hNumber
      rw [List.mem_singleton.mp hNumber]
      exact readable_number f.unnamed

/-- Parts that are readable one by one are readable in a row, and their bits are put together. -/
theorem foldlM_ofPart? {l : List (String × SectionFlags)} (h : ∀ e ∈ l, Readable e)
    (f : SectionFlags) :
    (l.map fun e => e.1.toList).foldlM (fun f part => (ofPart? part).map (f ||| ·)) f =
      some (l.foldl (fun f e => f ||| e.2) f) := by
  induction l generalizing f with
  | nil => rfl
  | cons e rest ih =>
      have hPart := (h e (List.mem_cons_self ..)).2
      rw [List.map_cons, List.foldlM_cons, hPart]
      exact ih (fun d hd => h d (List.mem_cons_of_mem _ hd)) (f ||| e.2)

theorem bits_foldl (l : List (String × SectionFlags)) (f : SectionFlags) :
    (l.foldl (fun f e => f ||| e.2) f).bits = l.foldl (fun b e => b ||| e.2.bits) f.bits := by
  induction l generalizing f with
  | nil => rfl
  | cons e rest ih => exact ih (f ||| e.2)

/-- The bits of a mask in a union are those in the one or in the other. -/
theorem and_or_distrib (x y z : UInt32) : x &&& (y ||| z) = (x &&& y) ||| (x &&& z) := by
  apply UInt32.eq_of_toBitVec_eq
  simp [BitVec.and_or_distrib_left]

/-- A flag of one bit is there or it is not. -/
theorem and_named (x : UInt32) :
    ∀ e ∈ named, x &&& e.2.bits = e.2.bits ∨ x &&& e.2.bits = 0 := by
  have hBit : ∀ e ∈ named, ∃ i, i < 6 ∧ e.2.bits.toBitVec = BitVec.twoPow 32 i := by decide
  intro e he
  obtain ⟨i, -, hi⟩ := hBit e he
  have hAnd : (x &&& e.2.bits).toBitVec =
      if x.toBitVec.getLsbD i then e.2.bits.toBitVec else 0 := by
    rw [UInt32.toBitVec_and, hi, BitVec.and_twoPow]
    rfl
  cases hSet : x.toBitVec.getLsbD i with
  | true => exact .inl (UInt32.eq_of_toBitVec_eq (by simpa [hSet] using hAnd))
  | false => exact .inr (UInt32.eq_of_toBitVec_eq (by simpa [hSet] using hAnd))

/-- The flags of a list that are there make up what is there of all of them. -/
theorem foldl_filter_includes {f : SectionFlags} {l : List (String × SectionFlags)}
    (h : ∀ e ∈ l, f.bits &&& e.2.bits = e.2.bits ∨ f.bits &&& e.2.bits = 0) (all : UInt32) :
    (l.filter fun e => f.includes e.2).foldl (fun b e => b ||| e.2.bits) (f.bits &&& all) =
      f.bits &&& l.foldl (fun b e => b ||| e.2.bits) all := by
  induction l generalizing all with
  | nil => rfl
  | cons e rest ih =>
      have hRest := ih (fun d hd => h d (List.mem_cons_of_mem _ hd)) (all ||| e.2.bits)
      rw [List.foldl_cons, ← hRest, and_or_distrib]
      by_cases hIncludes : f.bits &&& e.2.bits = e.2.bits
      · rw [List.filter_cons_of_pos (by simpa [includes] using hIncludes), List.foldl_cons,
          hIncludes]
      · have hNone := (h e (List.mem_cons_self ..)).resolve_left hIncludes
        rw [List.filter_cons_of_neg (by simpa [includes] using hIncludes), hNone, UInt32.or_zero]

/-- The named flags that are there and the bits without a name are all there is. -/
theorem foldl_parts (f : SectionFlags) : f.parts.foldl (fun f e => f ||| e.2) ⟨0⟩ = f := by
  have hNamed := foldl_filter_includes (and_named f.bits) 0
  have hAll : named.foldl (fun b e => b ||| e.2.bits) 0 |||
      (0xffffffff ^^^ named.foldl (fun all e => all ||| e.2.bits) 0) = (-1 : UInt32) := by decide
  have hWhole : (f.bits &&& named.foldl (fun b e => b ||| e.2.bits) 0) ||| f.unnamed = f.bits := by
    rw [unnamed, ← and_or_distrib, hAll, UInt32.and_neg_one]
  have hBits : (f.parts.foldl (fun (f : SectionFlags) e => f ||| e.2) ⟨0⟩).bits = f.bits := by
    rw [bits_foldl, parts, List.foldl_append]
    rw [UInt32.and_zero] at hNamed
    rw [hNamed]
    by_cases hNone : f.unnamed = 0
    · rw [if_pos hNone]
      rw [hNone, UInt32.or_zero] at hWhole
      exact hWhole
    · rw [if_neg hNone]
      exact hWhole
  exact congrArg SectionFlags.mk hBits

/-- Flags come back from their text, with the bits that have no name too. -/
theorem ofText?_text (f : SectionFlags) : ofText? f.text = some f := by
  have hFold := foldlM_ofPart? (fun _ => readable_of_mem_parts (f := f)) ⟨0⟩
  rw [foldl_parts] at hFold
  have hText : f.text.toList = [' ', '|', ' '].intercalate (f.parts.map fun e => e.1.toList) := by
    rw [text_eq_intercalate, String.toList_intercalate, List.map_map]
    rfl
  unfold ofText?
  rw [hText]
  cases hParts : f.parts.map (fun e => e.1.toList) with
  | nil =>
      rw [hParts] at hFold
      exact hFold
  | cons part rest =>
      have hSolid : ∀ p ∈ part :: rest, Solid p := by
        intro p hp
        rw [← hParts] at hp
        obtain ⟨e, he, rfl⟩ := List.mem_map.mp hp
        exact (readable_of_mem_parts he).1
      have hPart := hSolid part (List.mem_cons_self ..)
      have hSplit := map_trimBlanks_splitAtEach (fun c (hc : c ∈ []) => nomatch hc)
        hPart fun p hp => hSolid p (List.mem_cons_of_mem _ hp)
      have hSome : trimBlanks ([' ', '|', ' '].intercalate (part :: rest)) ≠ [] := by
        obtain ⟨c, more, rfl⟩ := List.exists_cons_of_ne_nil hPart.ne_nil
        rw [List.intercalate_cons_cons_left]
        exact trimBlanks_ne_nil (hPart.plain c (List.mem_cons_self ..)).1 _
      rw [if_neg hSome]
      rw [hParts, ← hSplit, List.foldlM_map] at hFold
      exact hFold

end SectionFlags

end Disassembly
