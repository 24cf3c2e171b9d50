import Disassembly.Proofs.Scanning

/-! The text of a value is read as that value. The tokens of a value take the reader from the
point where a value may come to the point where it is finished, whatever stands around it. -/
namespace Disassembly.Json

/-- A numeral is none of the three other words. -/
theorem ofWord?_of_isNumeral {written : List Char} (h : isNumeral written = true) :
    ofWord? written = some (.number written) := by
  have hOther : ∀ word, isNumeral word = false → written ≠ word := by
    rintro word hWord rfl
    rw [hWord] at h
    cases h
  unfold ofWord?
  rw [if_neg (hOther _ (by decide)), if_neg (hOther _ (by decide)),
    if_neg (hOther _ (by decide)), if_pos h]

/-- There are no spaces, quotes or marks of structure among digits, so they stay one word. -/
theorem wordy_decimal (n : Nat) : Wordy (decimal n) := by
  intro c hc
  have hOther : ∀ d : Char, d.isDigit = false → c ≠ d := by
    rintro d hd rfl
    rw [isDigit_of_mem_decimal hc] at hd
    cases hd
  refine ⟨?_, hOther '"' rfl, ?_⟩
  · simp [Token.isSpace, hOther ' ' rfl, hOther '\t' rfl, hOther '\n' rfl, hOther '\r' rfl]
  · unfold Token.punctuation?
    split
    · exact absurd rfl (hOther '[' rfl)
    · exact absurd rfl (hOther ']' rfl)
    · exact absurd rfl (hOther '\x7b' rfl)
    · exact absurd rfl (hOther '\x7d' rfl)
    · exact absurd rfl (hOther ',' rfl)
    · exact absurd rfl (hOther ':' rfl)
    · rfl

theorem numeral_decimal (n : Nat) : Numeral (decimal n) :=
  ⟨wordy_decimal n, ofWord?_of_isNumeral (isNumeral_decimal n)⟩

theorem numeral_neg_decimal (n : Nat) : Numeral ('-' :: decimal n) where
  wordy c hc := by
    rcases List.mem_cons.mp hc with rfl | hc
    · decide
    · exact wordy_decimal n c hc
  number := ofWord?_of_isNumeral (isNumeral_neg_decimal n)

namespace Stage

/-- Reading the tokens takes the reader from one stage to another. -/
def Takes (a : Stage) (read : List Token) (b : Stage) : Prop := read.foldlM step a = some b

variable {a b c : Stage} {t : Token}

theorem takes_one (h : step a t = some b) : Takes a [t] b := by simp [Takes, h]

/-- What takes the reader on to a stage can be followed by what takes it on from there. -/
theorem Takes.append {read more : List Token} (ha : Takes a read b) (hb : Takes b more c) :
    Takes a (read ++ more) c := by
  unfold Takes at *
  rw [List.foldlM_append, ha]
  exact hb

theorem Takes.cons {more : List Token} (ha : step a t = some b) (hb : Takes b more c) :
    Takes a (t :: more) c := (takes_one ha).append hb

mutual

/-- A value is read where one may come. -/
theorem takes_tokens (stack : List Frame) (fresh : Bool) :
    (v : Json) → Spelled v → Takes (value stack fresh) (tokens v) (finished stack v)
  | .null, _ => takes_one rfl
  | .bool true, _ => takes_one rfl
  | .bool false, _ => takes_one rfl
  | .number written, .number h => takes_one (by rw [step, h.number]; rfl)
  | .string written, _ => takes_one rfl
  | .array [], _ => (takes_one rfl).cons rfl
  | .array (v :: rest), .array h => by
      have hFirst := takes_tokens (.array [] :: stack) true v (h v (List.mem_cons_self ..))
      have hRest := takes_items stack [] v rest fun w hw => h w (List.mem_cons_of_mem _ hw)
      have hAll := Takes.cons (t := .openArray) (a := value stack fresh) rfl (hFirst.append hRest)
      simpa [tokens] using hAll
  | .object [], _ => (takes_one rfl).cons rfl
  | .object ((key, v) :: rest), .object _ h => by
      have hFirst := takes_tokens (.object [] key :: stack) false v
        (h (key, v) (List.mem_cons_self ..))
      have hRest := takes_members stack [] key v rest fun m hm => h m (List.mem_cons_of_mem _ hm)
      have hName : Takes (.name stack [] true) [.text key, .colon]
          (.value (.object [] key :: stack) false) := (takes_one rfl).cons rfl
      have hAll := Takes.cons (t := .openObject) (a := value stack fresh) rfl
        (hName.append (hFirst.append hRest))
      simpa [tokens] using hAll

/-- The rest of an array of which some items and one more have been read. -/
theorem takes_items (stack : List Frame) (done : List Json) (v : Json) :
    (rest : List Json) → (∀ w ∈ rest, Spelled w) →
      Takes (finished (.array done :: stack) v) (itemTokens rest ++ [.closeArray])
        (finished stack (.array (done.reverse ++ v :: rest)))
  | [], _ => takes_one (by simp [step])
  | w :: rest, h => by
      have hFirst := takes_tokens (.array (v :: done) :: stack) false w
        (h w (List.mem_cons_self ..))
      have hRest := takes_items stack (v :: done) w rest fun u hu => h u (List.mem_cons_of_mem _ hu)
      have hAll := Takes.cons (t := .comma) (a := finished (.array done :: stack) v) rfl
        (hFirst.append hRest)
      simpa [itemTokens] using hAll

/-- The rest of an object of which some members and one more have been read. -/
theorem takes_members (stack : List Frame) (done : List (List Char × Json)) (key : List Char)
    (v : Json) :
    (rest : List (List Char × Json)) → (∀ m ∈ rest, Spelled m.2) →
      Takes (finished (.object done key :: stack) v) (memberTokens rest ++ [.closeObject])
        (finished stack (.object (done.reverse ++ (key, v) :: rest)))
  | [], _ => takes_one (by simp [step])
  | (next, w) :: rest, h => by
      have hFirst := takes_tokens (.object ((key, v) :: done) next :: stack) false w
        (h (next, w) (List.mem_cons_self ..))
      have hRest := takes_members stack ((key, v) :: done) next w rest
        fun m hm => h m (List.mem_cons_of_mem _ hm)
      have hName : Takes (.name stack ((key, v) :: done) false) [.text next, .colon]
          (.value (.object ((key, v) :: done) next :: stack) false) := (takes_one rfl).cons rfl
      have hAll := Takes.cons (t := .comma) (a := finished (.object done key :: stack) v) rfl
        (hName.append (hFirst.append hRest))
      simpa [memberTokens] using hAll

end

end Stage

/-- The tokens of a value are read as the value, with nothing left open and nothing left over. -/
theorem ofTokens?_tokens {v : Json} (h : Spelled v) : ofTokens? (tokens v) = some v := by
  have hTakes : (tokens v).foldlM Stage.step (.value [] false) = some (.finished [] v) :=
    Stage.takes_tokens [] false v h
  unfold ofTokens?
  rw [hTakes]
  rfl

/-- A value that is written is read again, whatever the layout. -/
theorem parse?_render {l : Layout} (hl : l.Plain) {v : Json} (h : Spelled v) :
    parse? (render l 0 v) = some v := by
  rw [parse?, scan_render hl h]
  exact ofTokens?_tokens h

end Disassembly.Json
