import LineScope.Text.Hex

/-!
The SHA-256 digest of a sequence of bytes, written in hexadecimal.
-/

namespace LineScope.Digest

/-- The first 32 bits of the fractions of the cube roots of the first 64 primes. -/
def roundConstants : List UInt32 := [
  0x428a2f98, 0x71374491, 0xb5c0fbcf, 0xe9b5dba5, 0x3956c25b, 0x59f111f1,
  0x923f82a4, 0xab1c5ed5, 0xd807aa98, 0x12835b01, 0x243185be, 0x550c7dc3,
  0x72be5d74, 0x80deb1fe, 0x9bdc06a7, 0xc19bf174, 0xe49b69c1, 0xefbe4786,
  0x0fc19dc6, 0x240ca1cc, 0x2de92c6f, 0x4a7484aa, 0x5cb0a9dc, 0x76f988da,
  0x983e5152, 0xa831c66d, 0xb00327c8, 0xbf597fc7, 0xc6e00bf3, 0xd5a79147,
  0x06ca6351, 0x14292967, 0x27b70a85, 0x2e1b2138, 0x4d2c6dfc, 0x53380d13,
  0x650a7354, 0x766a0abb, 0x81c2c92e, 0x92722c85, 0xa2bfe8a1, 0xa81a664b,
  0xc24b8b70, 0xc76c51a3, 0xd192e819, 0xd6990624, 0xf40e3585, 0x106aa070,
  0x19a4c116, 0x1e376c08, 0x2748774c, 0x34b0bcb5, 0x391c0cb3, 0x4ed8aa4a,
  0x5b9cca4f, 0x682e6ff3, 0x748f82ee, 0x78a5636f, 0x84c87814, 0x8cc70208,
  0x90befffa, 0xa4506ceb, 0xbef9a3f7, 0xc67178f2]

structure Hash where
  (a b c d e f g h : UInt32)

/-- The first 32 bits of the fractions of the square roots of the first eight primes. -/
def Hash.initial : Hash :=
  ⟨0x6a09e667, 0xbb67ae85, 0x3c6ef372, 0xa54ff53a,
    0x510e527f, 0x9b05688c, 0x1f83d9ab, 0x5be0cd19⟩

def Hash.add (x y : Hash) : Hash :=
  ⟨x.a + y.a, x.b + y.b, x.c + y.c, x.d + y.d, x.e + y.e, x.f + y.f, x.g + y.g, x.h + y.h⟩

def Hash.words (x : Hash) : List UInt32 := [x.a, x.b, x.c, x.d, x.e, x.f, x.g, x.h]

def rotateRight (x n : UInt32) : UInt32 := (x >>> n) ||| (x <<< (32 - n))

def round (s : Hash) (kw : UInt32) : Hash :=
  let mixed := rotateRight s.e 6 ^^^ rotateRight s.e 11 ^^^ rotateRight s.e 25
  let choice := (s.e &&& s.f) ^^^ (~~~s.e &&& s.g)
  let first := s.h + mixed + choice + kw
  let turned := rotateRight s.a 2 ^^^ rotateRight s.a 13 ^^^ rotateRight s.a 22
  let majority := (s.a &&& s.b) ^^^ (s.a &&& s.c) ^^^ (s.b &&& s.c)
  ⟨first + (turned + majority), s.a, s.b, s.c, s.d + first, s.e, s.f, s.g⟩

/-- Extends sixteen words by `count` more; the words come last first. -/
def extend : Nat → List UInt32 → List UInt32
  | 0, words => words
  | count + 1, words =>
    let word (i : Nat) := words.getD i 0
    let s0 := rotateRight (word 14) 7 ^^^ rotateRight (word 14) 18 ^^^ (word 14 >>> 3)
    let s1 := rotateRight (word 1) 17 ^^^ rotateRight (word 1) 19 ^^^ (word 1 >>> 10)
    extend count ((word 15 + s0 + word 6 + s1) :: words)

def absorb (s : Hash) (block : List UInt32) : Hash :=
  let schedule := (extend 48 block.reverse).reverse
  s.add ((roundConstants.zipWith (· + ·) schedule).foldl round s)

/-- Four bytes a word, the most significant byte first. -/
def wordsOfBytes : List UInt8 → List UInt32
  | a :: b :: c :: d :: rest =>
    (a.toUInt32 <<< 24 ||| b.toUInt32 <<< 16 ||| c.toUInt32 <<< 8 ||| d.toUInt32) ::
      wordsOfBytes rest
  | _ => []

def bytesOfNat : Nat → Nat → List UInt8
  | 0, _ => []
  | count + 1, n => bytesOfNat count (n / 256) ++ [UInt8.ofNat n]

/-- A message with a one bit, zeros and its length in bits, in whole blocks of 64 bytes. -/
def pad (message : List UInt8) : List UInt8 :=
  let zeros := (119 - message.length % 64) % 64
  message ++ 0x80 :: List.replicate zeros 0 ++ bytesOfNat 8 (8 * message.length)

/-- Takes all blocks of sixteen words; the fuel is the number of blocks at least. -/
def absorbAll : Nat → Hash → List UInt32 → Hash
  | 0, s, _ => s
  | fuel + 1, s, words =>
    if words.isEmpty then s else absorbAll fuel (absorb s (words.take 16)) (words.drop 16)

def hash (message : List UInt8) : Hash :=
  let words := wordsOfBytes (pad message)
  absorbAll words.length .initial words

def hexDigest (message : List UInt8) : List Char :=
  (hash message).words.flatMap fun w => Text.hexDigits 8 w.toNat

end LineScope.Digest
