import Disassembly.Digest.Words

/-! SHA-256 of a list of bytes. -/
namespace Disassembly.Sha256

open Digest

/-- The first 32 fraction bits of the square roots of the first eight primes. -/
def initial : List UInt32 :=
  [0x6a09e667, 0xbb67ae85, 0x3c6ef372, 0xa54ff53a, 0x510e527f, 0x9b05688c,
   0x1f83d9ab, 0x5be0cd19]

/-- The first 32 fraction bits of the cube roots of the first 64 primes. -/
def roundConstants : List UInt32 :=
  [0x428a2f98, 0x71374491, 0xb5c0fbcf, 0xe9b5dba5, 0x3956c25b, 0x59f111f1,
   0x923f82a4, 0xab1c5ed5, 0xd807aa98, 0x12835b01, 0x243185be, 0x550c7dc3,
   0x72be5d74, 0x80deb1fe, 0x9bdc06a7, 0xc19bf174, 0xe49b69c1, 0xefbe4786,
   0x0fc19dc6, 0x240ca1cc, 0x2de92c6f, 0x4a7484aa, 0x5cb0a9dc, 0x76f988da,
   0x983e5152, 0xa831c66d, 0xb00327c8, 0xbf597fc7, 0xc6e00bf3, 0xd5a79147,
   0x06ca6351, 0x14292967, 0x27b70a85, 0x2e1b2138, 0x4d2c6dfc, 0x53380d13,
   0x650a7354, 0x766a0abb, 0x81c2c92e, 0x92722c85, 0xa2bfe8a1, 0xa81a664b,
   0xc24b8b70, 0xc76c51a3, 0xd192e819, 0xd6990624, 0xf40e3585, 0x106aa070,
   0x19a4c116, 0x1e376c08, 0x2748774c, 0x34b0bcb5, 0x391c0cb3, 0x4ed8aa4a,
   0x5b9cca4f, 0x682e6ff3, 0x748f82ee, 0x78a5636f, 0x84c87814, 0x8cc70208,
   0x90befffa, 0xa4506ceb, 0xbef9a3f7, 0xc67178f2]

/-- The number with the given bytes, most significant first. -/
def word (bytes : List UInt8) : UInt32 :=
  bytes.foldl (fun w b => (w <<< 8) ||| b.toUInt32) 0

def wordBytes (w : UInt32) : List UInt8 :=
  [(w >>> 24).toUInt8, (w >>> 16).toUInt8, (w >>> 8).toUInt8, w.toUInt8]

/-- The message followed by a set bit, zeros and its length in bits, so that the whole is a
multiple of 64 bytes. -/
def pad (message : List UInt8) : List UInt8 :=
  let zeros := (119 - message.length % 64) % 64
  let lengthByte (i : Nat) : UInt8 := UInt8.ofNat ((8 * message.length) >>> (8 * (7 - i)))
  message ++ 0x80 :: List.replicate zeros 0 ++ (List.range 8).map lengthByte

/-- One more word of the schedule, from the sixteen words before it. -/
def extend (words : Array UInt32) : Array UInt32 :=
  let before (back : Nat) : UInt32 := words.getD (words.size - back) 0
  let a := before 15
  let b := before 2
  let s0 := rotateRight a 7 ^^^ rotateRight a 18 ^^^ (a >>> 3)
  let s1 := rotateRight b 17 ^^^ rotateRight b 19 ^^^ (b >>> 10)
  words.push (s1 + before 7 + s0 + before 16)

/-- The eight working variables. -/
structure State where
  a : UInt32
  b : UInt32
  c : UInt32
  d : UInt32
  e : UInt32
  f : UInt32
  g : UInt32
  h : UInt32

def State.ofList : List UInt32 → State
  | [a, b, c, d, e, f, g, h] => ⟨a, b, c, d, e, f, g, h⟩
  | _ => ⟨0, 0, 0, 0, 0, 0, 0, 0⟩

def State.toList (s : State) : List UInt32 := [s.a, s.b, s.c, s.d, s.e, s.f, s.g, s.h]

def State.round (s : State) (k w : UInt32) : State :=
  let s1 := rotateRight s.e 6 ^^^ rotateRight s.e 11 ^^^ rotateRight s.e 25
  let choice := (s.e &&& s.f) ^^^ ((s.e ^^^ 0xffffffff) &&& s.g)
  let t1 := s.h + s1 + choice + k + w
  let s0 := rotateRight s.a 2 ^^^ rotateRight s.a 13 ^^^ rotateRight s.a 22
  let majority := (s.a &&& s.b) ^^^ (s.a &&& s.c) ^^^ (s.b &&& s.c)
  ⟨t1 + (s0 + majority), s.a, s.b, s.c, s.d + t1, s.e, s.f, s.g⟩

/-- Folds one block of 64 bytes into the hash value. -/
def compress (value : List UInt32) (block : List UInt8) : List UInt32 :=
  let first := ((runs 3 block).map word).toArray
  let words := (48).repeat extend first
  let final := (roundConstants.zip words.toList).foldl (fun s kw => s.round kw.1 kw.2)
    (State.ofList value)
  value.zipWith (· + ·) final.toList

/-- The digest, 32 bytes. -/
def hash (message : List UInt8) : List UInt8 :=
  ((runs 63 (pad message)).foldl compress initial).flatMap wordBytes

end Disassembly.Sha256
