import Disassembly.Json.Layout
import Disassembly.Json.Tree
import Disassembly.Proofs.Escapes

/-! The text of a value is cut into the tokens of the value. White space and marks end a word
that stands before them, so what has been read is told by the tokens there would be if the
word under way ended now. -/
namespace Disassembly.Json

mutual

/-- The tokens that a value is spelled with. -/
def tokens : Json → List Token
  | .null => [.word "null".toList]
  | .bool true => [.word "true".toList]
  | .bool false => [.word "false".toList]
  | .number written => [.word written]
  | .string written => [.text written]
  | .array [] => [.openArray, .closeArray]
  | .array (v :: rest) => .openArray :: tokens v ++ itemTokens rest ++ [.closeArray]
  | .object [] => [.openObject, .closeObject]
  | .object ((name, v) :: rest) =>
    .openObject :: .text name :: .colon :: tokens v ++ memberTokens rest ++ [.closeObject]

/-- The tokens of further items. -/
def itemTokens : List Json → List Token
  | [] => []
  | v :: rest => .comma :: tokens v ++ itemTokens rest

/-- The tokens of further members. -/
def memberTokens : List (List Char × Json) → List Token
  | [] => []
  | (name, v) :: rest => .comma :: .text name :: .colon :: tokens v ++ memberTokens rest

end

/-- The characters of a word, none of which ends it. -/
def Wordy (written : List Char) : Prop :=
  ∀ c ∈ written, Token.isSpace c = false ∧ c ≠ '"' ∧ Token.punctuation? c = none

/-- The characters of a given word can be looked at one by one. -/
theorem wordy_of_all {written : List Char}
    (h : (written.all fun c => !Token.isSpace c && c != '"' && (Token.punctuation? c).isNone) =
      true) : Wordy written := by
  intro c hc
  have hChar := List.all_eq_true.mp h c hc
  simpa [and_assoc] using hChar

/-- The spelling is one word, and that of a number. -/
structure Numeral (written : List Char) : Prop where
  wordy : Wordy written
  number : ofWord? written = some (.number written)

/-- The value can be written as it is: numbers are numerals, and texts and names have no
character that would have to be escaped. -/
inductive Spelled : Json → Prop where
  | null : Spelled .null
  | bool (b : Bool) : Spelled (.bool b)
  | number {written : List Char} (h : Numeral written) : Spelled (.number written)
  | string {written : List Char} (h : Token.Quotable written) : Spelled (.string written)
  | array {items : List Json} (h : ∀ v ∈ items, Spelled v) : Spelled (.array items)
  | object {members : List (List Char × Json)} (hName : ∀ m ∈ members, Token.Quotable m.1)
      (h : ∀ m ∈ members, Spelled m.2) : Spelled (.object members)

namespace Token

/-- After a word or a mark the text adds the tokens to those that are there, the word under way
among them. It may leave a word under way. -/
def Follows (text : List Char) (tokens : List Token) : Prop :=
  ∀ read done, ∃ read' done', text.foldlM step (.word read, done) = some (.word read', done') ∧
    endWord read' done' = tokens.reverse ++ endWord read done

/-- The same where no word is under way, which it would otherwise be added to. -/
def Begins (text : List Char) (tokens : List Token) : Prop :=
  ∀ done, ∃ read' done', text.foldlM step (.word [], done) = some (.word read', done') ∧
    endWord read' done' = tokens.reverse ++ done

/-- The text ends what is under way and leaves no word itself. -/
def Clears (text : List Char) (tokens : List Token) : Prop :=
  ∀ read done, text.foldlM step (.word read, done) =
    some (.word [], tokens.reverse ++ endWord read done)

variable {a b : List Char} {s t : List Token}

theorem Clears.follows (h : Clears a s) : Follows a s := fun read done => ⟨[], _, h read done, rfl⟩

theorem Follows.begins (h : Follows a s) : Begins a s := fun done => h [] done

theorem follows_nil : Follows [] [] := fun read done => ⟨read, done, rfl, rfl⟩

/-- Texts that can stand anywhere can stand one behind the other. -/
theorem Follows.append (ha : Follows a s) (hb : Follows b t) : Follows (a ++ b) (s ++ t) := by
  intro read done
  obtain ⟨read', done', hFirst, hTokens⟩ := ha read done
  obtain ⟨read'', done'', hSecond, hTokens'⟩ := hb read' done'
  refine ⟨read'', done'', ?_, ?_⟩
  · rw [List.foldlM_append, hFirst]
    exact hSecond
  · rw [hTokens', hTokens, List.reverse_append, List.append_assoc]

/-- Behind a text that leaves no word under way, a text that begins a word can stand. -/
theorem Clears.append (ha : Clears a s) (hb : Begins b t) : Follows (a ++ b) (s ++ t) := by
  intro read done
  obtain ⟨read', done', hSecond, hTokens⟩ := hb (s.reverse ++ endWord read done)
  refine ⟨read', done', ?_, ?_⟩
  · rw [List.foldlM_append, ha]
    exact hSecond
  · rw [hTokens, List.reverse_append, List.append_assoc]

theorem Clears.trans (ha : Clears a s) (hb : Clears b t) : Clears (a ++ b) (s ++ t) := by
  intro read done
  rw [List.foldlM_append, ha]
  refine (hb [] _).trans ?_
  rw [List.reverse_append, List.append_assoc]
  rfl

/-- A mark of structure is a token by itself, even right behind a word. -/
theorem clears_mark {c : Char} {token : Token} (h : punctuation? c = some token)
    (hSpace : isSpace c = false) (hQuote : c ≠ '"') : Clears [c] [token] := by
  intro read done
  simp [step, h, hSpace, hQuote]

theorem clears_space {c : Char} (h : isSpace c = true) : Clears [c] [] := by
  intro read done
  simp [step, h]

/-- White space ends a word and is nothing by itself. -/
theorem follows_spaces {spaces : List Char} (h : ∀ c ∈ spaces, isSpace c = true) :
    Follows spaces [] := by
  induction spaces with
  | nil => exact follows_nil
  | cons c rest ih =>
      have hRest := ih fun d hd => h d (List.mem_cons_of_mem _ hd)
      exact (clears_space (h c (List.mem_cons_self ..))).follows.append hRest

/-- A text that ends what is under way does so whatever stands in front of it. -/
theorem Follows.clears (ha : Follows a s) (hb : Clears b t) : Clears (a ++ b) (s ++ t) := by
  intro read done
  obtain ⟨read', done', hFirst, hTokens⟩ := ha read done
  rw [List.foldlM_append, hFirst]
  refine (hb read' done').trans ?_
  rw [hTokens, List.reverse_append, List.append_assoc]

/-- White space behind a text that leaves nothing under way makes no difference. -/
theorem Clears.spaced {spaces : List Char} (ha : Clears a s)
    (h : ∀ c ∈ spaces, isSpace c = true) : Clears (a ++ spaces) s := by
  induction spaces generalizing a with
  | nil => simpa using ha
  | cons c rest ih =>
      have hFirst : Clears (a ++ [c]) s := by
        simpa using ha.trans (clears_space (h c (List.mem_cons_self ..)))
      simpa using ih hFirst fun d hd => h d (List.mem_cons_of_mem _ hd)

/-- A quoted text is one token, wherever it stands. -/
theorem clears_quoted {written : List Char} (h : Quotable written) :
    Clears (quoted written) [.text written] := by
  intro read done
  have hOpen : step (.word read, done) '"' = some (.text [], endWord read done) := rfl
  have hText := h [] (endWord read done)
  simp only [quoted, List.cons_append, List.foldlM_cons, hOpen, List.foldlM_append]
  change (written.foldlM step (.text [], endWord read done)).bind _ = _
  rw [hText, List.append_nil]
  simp [step]

/-- The characters of a word are added to it one by one. -/
theorem foldlM_word {written : List Char} (h : Wordy written) (read : List Char)
    (done : List Token) :
    written.foldlM step (.word read, done) = some (.word (written.reverse ++ read), done) := by
  induction written generalizing read with
  | nil => rfl
  | cons c rest ih =>
      obtain ⟨hSpace, hQuote, hMark⟩ := h c (List.mem_cons_self ..)
      have hStep : step (.word read, done) c = some (.word (c :: read), done) := by
        simp [step, hSpace, hQuote, hMark]
      rw [List.foldlM_cons, hStep]
      refine (ih (fun d hd => h d (List.mem_cons_of_mem _ hd)) (c :: read)).trans ?_
      simp

/-- A word is one token where none is under way. Directly behind another word it would go on with
that one. -/
theorem begins_word {written : List Char} (h : Wordy written) (hSome : written ≠ []) :
    Begins written [.word written] := by
  intro done
  refine ⟨written.reverse, done, by simpa using foldlM_word h [] done, ?_⟩
  simp [endWord, hSome]

end Token

/-- The layout puts white space between tokens and nothing else. -/
structure Layout.Plain (l : Layout) : Prop where
  lineBreak : ∀ depth, ∀ c ∈ l.lineBreak depth, Token.isSpace c = true
  colon : ∃ spaces, l.colon = ':' :: spaces ∧ ∀ c ∈ spaces, Token.isSpace c = true

theorem Layout.plain_compact : Layout.compact.Plain where
  lineBreak depth c hc := by cases hc
  colon := ⟨[], rfl, fun c hc => by cases hc⟩

/-- The layout with indentation has nothing between tokens but line breaks and blanks. -/
theorem Layout.plain_indented : Layout.indented.Plain where
  lineBreak depth c hc := by
    rcases List.mem_cons.mp hc with rfl | hc
    · rfl
    · rw [List.eq_of_mem_replicate hc]
      rfl
  colon := ⟨[' '], rfl, fun c hc => by rw [List.mem_singleton.mp hc]; rfl⟩

section Rendering

open Token

variable {l : Layout}

theorem Numeral.ne_nil {written : List Char} (h : Numeral written) : written ≠ [] := by
  rintro rfl
  cases h.number

/-- A mark and the white space behind it. -/
theorem clears_open (hl : l.Plain) (depth : Nat) {c : Char} {token : Token}
    (h : punctuation? c = some token) (hSpace : isSpace c = false) (hQuote : c ≠ '"') :
    Clears (c :: l.lineBreak depth) [token] :=
  (clears_mark h hSpace hQuote).spaced (hl.lineBreak depth)

/-- A mark behind white space. -/
theorem clears_close (hl : l.Plain) (depth : Nat) {c : Char} {token : Token}
    (h : punctuation? c = some token) (hSpace : isSpace c = false) (hQuote : c ≠ '"') :
    Clears (l.lineBreak depth ++ [c]) [token] :=
  (follows_spaces (hl.lineBreak depth)).clears (clears_mark h hSpace hQuote)

/-- A name and the colon behind it. -/
theorem clears_name (hl : l.Plain) {name : List Char} (h : Quotable name) :
    Clears (quoted name ++ l.colon) [.text name, .colon] := by
  obtain ⟨spaces, hColon, hSpaces⟩ := hl.colon
  rw [hColon]
  have hMark : Clears [':'] [.colon] := clears_mark rfl rfl (by decide)
  exact (clears_quoted h).trans (hMark.spaced hSpaces)

mutual

/-- The text of a value is cut into its tokens, in every layout and at every depth. By induction on
the value, with its items and its members. -/
theorem begins_render (hl : l.Plain) (depth : Nat) :
    (v : Json) → Spelled v → Begins (render l depth v) (tokens v)
  | .null, _ => begins_word (wordy_of_all rfl) (by simp [render])
  | .bool true, _ => begins_word (wordy_of_all rfl) (by simp [render])
  | .bool false, _ => begins_word (wordy_of_all rfl) (by simp [render])
  | .number written, .number h => begins_word h.wordy h.ne_nil
  | .string written, .string h => (clears_quoted h).follows.begins
  | .array [], _ => by
      have hOpen : Clears ['['] [.openArray] := clears_mark rfl rfl (by decide)
      have hClose : Clears [']'] [.closeArray] := clears_mark rfl rfl (by decide)
      exact (hOpen.trans hClose).follows.begins
  | .array (v :: rest), .array h => by
      have hOpen := clears_open hl (depth + 1) (c := '[') rfl rfl (by decide)
      have hFirst := begins_render hl (depth + 1) v (h v (List.mem_cons_self ..))
      have hRest := follows_renderItems hl (depth + 1) rest
        fun w hw => h w (List.mem_cons_of_mem _ hw)
      have hClose := clears_close hl depth (c := ']') rfl rfl (by decide)
      have hAll := (((hOpen.append hFirst).append hRest).append hClose.follows).begins
      simpa [render, tokens] using hAll
  | .object [], _ => by
      have hOpen : Clears ['\x7b'] [.openObject] := clears_mark rfl rfl (by decide)
      have hClose : Clears ['\x7d'] [.closeObject] := clears_mark rfl rfl (by decide)
      exact (hOpen.trans hClose).follows.begins
  | .object ((name, v) :: rest), .object hName h => by
      have hOpen := clears_open hl (depth + 1) (c := '\x7b') rfl rfl (by decide)
      have hKey := clears_name hl (hName (name, v) (List.mem_cons_self ..))
      have hFirst := begins_render hl (depth + 1) v (h (name, v) (List.mem_cons_self ..))
      have hRest := follows_renderMembers hl (depth + 1) rest
        (fun m hm => hName m (List.mem_cons_of_mem _ hm))
        fun m hm => h m (List.mem_cons_of_mem _ hm)
      have hClose := clears_close hl depth (c := '\x7d') rfl rfl (by decide)
      have hAll := ((((hOpen.trans hKey).append hFirst).append hRest).append hClose.follows).begins
      simpa [render, tokens] using hAll

/-- Further items begin with a comma, so they can stand behind any item. -/
theorem follows_renderItems (hl : l.Plain) (depth : Nat) :
    (items : List Json) → (∀ v ∈ items, Spelled v) →
      Follows (renderItems l depth items) (itemTokens items)
  | [], _ => follows_nil
  | v :: rest, h => by
      have hComma := clears_open hl depth (c := ',') rfl rfl (by decide)
      have hFirst := begins_render hl depth v (h v (List.mem_cons_self ..))
      have hRest := follows_renderItems hl depth rest fun w hw => h w (List.mem_cons_of_mem _ hw)
      have hAll := (hComma.append hFirst).append hRest
      simpa [renderItems, itemTokens] using hAll

/-- Further members begin with a comma as well, and each has its name before its value. -/
theorem follows_renderMembers (hl : l.Plain) (depth : Nat) :
    (members : List (List Char × Json)) → (∀ m ∈ members, Quotable m.1) →
      (∀ m ∈ members, Spelled m.2) →
      Follows (renderMembers l depth members) (memberTokens members)
  | [], _, _ => follows_nil
  | (name, v) :: rest, hName, h => by
      have hComma := clears_open hl depth (c := ',') rfl rfl (by decide)
      have hKey := clears_name hl (hName (name, v) (List.mem_cons_self ..))
      have hFirst := begins_render hl depth v (h (name, v) (List.mem_cons_self ..))
      have hRest := follows_renderMembers hl depth rest
        (fun m hm => hName m (List.mem_cons_of_mem _ hm))
        fun m hm => h m (List.mem_cons_of_mem _ hm)
      have hAll := ((hComma.trans hKey).append hFirst).append hRest
      simpa [renderMembers, memberTokens] using hAll

end

/-- The whole text is cut into the tokens of the value. -/
theorem scan_render (hl : l.Plain) {v : Json} (h : Spelled v) :
    scan (render l 0 v) = some (tokens v) := by
  obtain ⟨read, done, hFold, hTokens⟩ := begins_render hl 0 v h []
  unfold scan
  rw [hFold]
  change some (endWord read done).reverse = _
  rw [hTokens]
  simp

end Rendering

end Disassembly.Json
