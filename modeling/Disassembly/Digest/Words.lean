/-! Words and runs of bytes, as the hash functions cut up their input. -/
namespace Disassembly.Digest

def rotateRight (x : UInt32) (n : UInt32) : UInt32 := (x >>> n) ||| (x <<< (32 - n))

/-- Splits a list into runs of `n + 1`. The last run may be shorter. -/
def runs (n : Nat) {α : Type} (l : List α) : List (List α) :=
  match l with
  | [] => []
  | head :: rest => (head :: rest.take n) :: runs n (rest.drop n)
termination_by l.length
decreasing_by simp only [List.length_drop, List.length_cons]; omega

end Disassembly.Digest
