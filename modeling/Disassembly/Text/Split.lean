/-! Texts cut at each occurrence of one character. -/
namespace Disassembly

/-- The parts of a text between the occurrences of `mark`. There is one part more than there
are occurrences. -/
def splitAtEach (mark : Char) : List Char → List (List Char)
  | [] => [[]]
  | c :: rest =>
    if c = mark then [] :: splitAtEach mark rest
    else match splitAtEach mark rest with
      | [] => [[c]]
      | first :: parts => (c :: first) :: parts

end Disassembly
