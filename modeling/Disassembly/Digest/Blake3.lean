import Disassembly.Digest.Words

/-! BLAKE3 of a list of bytes, unkeyed and with 32 bytes of output. The input is cut into
chunks of 1024 bytes, each chunk into blocks of 64, and the chunks are the leaves of a tree
whose inner nodes compress the chaining values of their two children. -/
namespace Disassembly.Blake3

open Digest

/-- The initial chaining value. -/
def initial : List UInt32 :=
  [0x6a09e667, 0xbb67ae85, 0x3c6ef372, 0xa54ff53a, 0x510e527f, 0x9b05688c,
   0x1f83d9ab, 0x5be0cd19]

/-- The order in which a round takes the message words that the round before it took. -/
def permutation : List Nat := [2, 6, 3, 10, 7, 0, 4, 13, 1, 11, 12, 5, 9, 14, 15, 8]

def chunkStart : UInt32 := 1
def chunkEnd : UInt32 := 2
def parent : UInt32 := 4
def root : UInt32 := 8

/-- Mixes two message words into four words of the state. -/
def mix (s : Array UInt32) (a b c d : Nat) (x y : UInt32) : Array UInt32 :=
  let cell (i : Nat) : UInt32 := s.getD i 0
  let va := cell a + cell b + x
  let vd := rotateRight (cell d ^^^ va) 16
  let vc := cell c + vd
  let vb := rotateRight (cell b ^^^ vc) 12
  let va := va + vb + y
  let vd := rotateRight (vd ^^^ va) 8
  let vc := vc + vd
  let vb := rotateRight (vb ^^^ vc) 7
  ((((s.setIfInBounds a va).setIfInBounds b vb).setIfInBounds c vc).setIfInBounds d vd)

/-- Mixes the columns of the state and then its diagonals. -/
def round (s m : Array UInt32) : Array UInt32 :=
  let w (i : Nat) : UInt32 := m.getD i 0
  let s := mix s 0 4 8 12 (w 0) (w 1)
  let s := mix s 1 5 9 13 (w 2) (w 3)
  let s := mix s 2 6 10 14 (w 4) (w 5)
  let s := mix s 3 7 11 15 (w 6) (w 7)
  let s := mix s 0 5 10 15 (w 8) (w 9)
  let s := mix s 1 6 11 12 (w 10) (w 11)
  let s := mix s 2 7 8 13 (w 12) (w 13)
  mix s 3 4 9 14 (w 14) (w 15)

def permute (m : Array UInt32) : Array UInt32 :=
  (permutation.map fun i => m.getD i 0).toArray

/-- What one compression takes: the last block of a chunk or the pair of chaining values
below an inner node. It is kept open because the root is compressed with a flag of its own. -/
structure Node where
  chaining : List UInt32
  block : List UInt32
  counter : Nat
  blockLength : Nat
  flags : UInt32

/-- The first eight words that the compression yields. -/
def Node.compress (n : Node) (extra : UInt32) : List UInt32 :=
  let start := (n.chaining ++ initial.take 4 ++
    [UInt32.ofNat n.counter, UInt32.ofNat (n.counter >>> 32), UInt32.ofNat n.blockLength,
      n.flags ||| extra]).toArray
  let step (sm : Array UInt32 × Array UInt32) := (round sm.1 sm.2, permute sm.2)
  let final := ((7).repeat step (start, n.block.toArray)).1.toList
  (final.take 8).zipWith (· ^^^ ·) (final.drop 8)

/-- The number with the given bytes, least significant first. -/
def word (bytes : List UInt8) : UInt32 :=
  bytes.foldr (fun b w => (w <<< 8) ||| b.toUInt32) 0

def wordBytes (w : UInt32) : List UInt8 :=
  [w.toUInt8, (w >>> 8).toUInt8, (w >>> 16).toUInt8, (w >>> 24).toUInt8]

/-- The sixteen words of a block, filled up with zeros. -/
def blockWords (block : List UInt8) : List UInt32 :=
  (runs 3 (block ++ List.replicate (64 - block.length) 0)).map word

/-- The node of a chunk: its blocks but the last are folded into the chaining value. -/
def chunkNode (counter : Nat) (chaining : List UInt32) (flags : UInt32) :
    List (List UInt8) → Node
  | [] => ⟨chaining, blockWords [], counter, 0, flags ||| chunkEnd⟩
  | [block] => ⟨chaining, blockWords block, counter, block.length, flags ||| chunkEnd⟩
  | block :: rest =>
    let node : Node := ⟨chaining, blockWords block, counter, block.length, flags⟩
    chunkNode counter (node.compress 0) 0 rest

/-- The leaves of the tree, left to right. An empty input has one empty chunk. -/
def leaves (input : List UInt8) : List Node :=
  let chunks := if input.isEmpty then [[]] else runs 1023 input
  chunks.zipIdx.map fun (chunk, i) => chunkNode i initial chunkStart (runs 63 chunk)

def join (left right : Node) : Node :=
  ⟨initial, left.compress 0 ++ right.compress 0, 0, 64, parent⟩

/-- Joins neighbours. A last node without a neighbour rises to the next level as it is, so
each left subtree is complete. -/
def level : List Node → List Node
  | left :: right :: rest => join left right :: level rest
  | rest => rest

theorem length_level_le : ∀ nodes : List Node, (level nodes).length ≤ nodes.length
  | [] => by simp [level]
  | [_] => by simp [level]
  | _ :: _ :: rest => by
    have := length_level_le rest
    simp only [level, List.length_cons]
    omega

/-- The node at the top. -/
def top (first second : Node) (rest : List Node) : Node :=
  match _h : level rest with
  | [] => join first second
  | next :: others => top (join first second) next others
termination_by rest.length
decreasing_by
  have := length_level_le rest
  rw [_h] at this
  simp at this
  omega

/-- The digest, 32 bytes. -/
def hash (input : List UInt8) : List UInt8 :=
  let node := match leaves input with
    | [] => chunkNode 0 initial chunkStart []
    | [only] => only
    | first :: second :: rest => top first second rest
  (node.compress root).flatMap wordBytes

end Disassembly.Blake3
