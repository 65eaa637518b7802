import ClaimTriage.Theory.Numeral
import Mathlib.Data.Nat.Bitwise

/-!
# SHA-256

The hash of FIPS 180-4 over a list of bytes, computed word by word on natural
numbers below `2 ^ 32`. It is here so that a digest a development names is a
value it can evaluate: nothing is proved about how hard the function is to
collide, and a development that needs two digests to differ either evaluates
them or takes it as a hypothesis about the messages at hand.

The message schedule is kept with its most recent word first, so extending it
by one word reads four fixed places of the list.

## Main definitions

* `compress`: One block into the eight chaining words.
* `sha256`: The chaining words a message ends in.
* `hexdigest`: Those words as 64 hexadecimal digits.

## Theorems

* `printable_hexdigest`: A digest is plain characters.
-/

namespace Theory

namespace Sha256

open Text Numeral

/-- A number as a 32-bit word. -/
def word (n : Nat) : Nat :=
  n % 2 ^ 32

/-- A word rotated right. -/
def rotr (x n : Nat) : Nat :=
  word (x >>> n ||| x <<< (32 - n))

/-- The second word where the first has a one, the third where it has a
    zero. -/
def ch (x y z : Nat) : Nat :=
  (x &&& y) ^^^ ((2 ^ 32 - 1 - x) &&& z)

/-- The bit most of three words have. -/
def maj (x y z : Nat) : Nat :=
  (x &&& y) ^^^ (x &&& z) ^^^ (y &&& z)

def bigSigma0 (x : Nat) : Nat :=
  rotr x 2 ^^^ rotr x 13 ^^^ rotr x 22

def bigSigma1 (x : Nat) : Nat :=
  rotr x 6 ^^^ rotr x 11 ^^^ rotr x 25

def smallSigma0 (x : Nat) : Nat :=
  rotr x 7 ^^^ rotr x 18 ^^^ x >>> 3

def smallSigma1 (x : Nat) : Nat :=
  rotr x 17 ^^^ rotr x 19 ^^^ x >>> 10

/-- The first 32 bits of the fractional parts of the cube roots of the first
    64 primes. -/
def roundConstants : List Nat :=
  [0x428a2f98, 0x71374491, 0xb5c0fbcf, 0xe9b5dba5, 0x3956c25b, 0x59f111f1, 0x923f82a4, 0xab1c5ed5,
    0xd807aa98, 0x12835b01, 0x243185be, 0x550c7dc3, 0x72be5d74, 0x80deb1fe, 0x9bdc06a7, 0xc19bf174,
    0xe49b69c1, 0xefbe4786, 0x0fc19dc6, 0x240ca1cc, 0x2de92c6f, 0x4a7484aa, 0x5cb0a9dc, 0x76f988da,
    0x983e5152, 0xa831c66d, 0xb00327c8, 0xbf597fc7, 0xc6e00bf3, 0xd5a79147, 0x06ca6351, 0x14292967,
    0x27b70a85, 0x2e1b2138, 0x4d2c6dfc, 0x53380d13, 0x650a7354, 0x766a0abb, 0x81c2c92e, 0x92722c85,
    0xa2bfe8a1, 0xa81a664b, 0xc24b8b70, 0xc76c51a3, 0xd192e819, 0xd6990624, 0xf40e3585, 0x106aa070,
    0x19a4c116, 0x1e376c08, 0x2748774c, 0x34b0bcb5, 0x391c0cb3, 0x4ed8aa4a, 0x5b9cca4f, 0x682e6ff3,
    0x748f82ee, 0x78a5636f, 0x84c87814, 0x8cc70208, 0x90befffa, 0xa4506ceb, 0xbef9a3f7, 0xc67178f2]

/-- The eight chaining words. -/
structure Words where
  a : Nat
  b : Nat
  c : Nat
  d : Nat
  e : Nat
  f : Nat
  g : Nat
  h : Nat

/-- The first 32 bits of the fractional parts of the square roots of the first
    eight primes. -/
def initial : Words where
  a := 0x6a09e667
  b := 0xbb67ae85
  c := 0x3c6ef372
  d := 0xa54ff53a
  e := 0x510e527f
  f := 0x9b05688c
  g := 0x1f83d9ab
  h := 0x5be0cd19

/-- The message schedule, most recent word first, extended by some words. -/
def extend : Nat → List Nat → List Nat
  | 0, ws => ws
  | n + 1, ws =>
    extend n (word (smallSigma1 (ws.getD 1 0) + ws.getD 6 0 + smallSigma0 (ws.getD 14 0) +
      ws.getD 15 0) :: ws)

/-- One round, on a round constant and a word of the schedule. -/
def round (s : Words) (kw : Nat × Nat) : Words :=
  let t1 := s.h + bigSigma1 s.e + ch s.e s.f s.g + kw.1 + kw.2
  let t2 := bigSigma0 s.a + maj s.a s.b s.c
  { a := word (t1 + t2), b := s.a, c := s.b, d := s.c,
    e := word (s.d + t1), f := s.e, g := s.f, h := s.g }

/-- Word by word addition. -/
def Words.add (s t : Words) : Words :=
  { a := word (s.a + t.a), b := word (s.b + t.b), c := word (s.c + t.c), d := word (s.d + t.d),
    e := word (s.e + t.e), f := word (s.f + t.f), g := word (s.g + t.g), h := word (s.h + t.h) }

/-- One block of sixteen words into the chaining words. -/
def compress (s : Words) (block : List Nat) : Words :=
  s.add ((roundConstants.zip (extend 48 block.reverse).reverse).foldl round s)

/-- Bytes as words, most significant byte first. -/
def words : List Nat → List Nat
  | a :: b :: c :: d :: rest => (((a * 256 + b) * 256 + c) * 256 + d) :: words rest
  | _ => []

/-- A number as bytes, most significant first. -/
def bytes : Nat → Nat → List Nat
  | 0, _ => []
  | w + 1, n => bytes w (n / 256) ++ [n % 256]

/-- A message with the one bit, the zeros and the length it is closed with. -/
def pad (m : List Nat) : List Nat :=
  m ++ 0x80 :: (List.replicate ((119 - m.length % 64) % 64) 0 ++ bytes 8 (8 * m.length))

/-- Words in blocks of sixteen. -/
def blocks : Nat → List Nat → List (List Nat)
  | 0, _ => []
  | n + 1, ws => ws.take 16 :: blocks n (ws.drop 16)

/-- The chaining words a message ends in. -/
def sha256 (m : List Nat) : Words :=
  (blocks ((pad m).length / 64) (words (pad m))).foldl compress initial

/-- The digest of a message as hexadecimal digits. -/
def hexdigest (m : List Nat) : Str :=
  let s := sha256 m
  [s.a, s.b, s.c, s.d, s.e, s.f, s.g, s.h].flatMap (fixed 16 8)

set_option maxRecDepth 10000 in
example : hexdigest [0x61, 0x62, 0x63] =
    text "ba7816bf8f01cfea414140de5dae2223b00361a396177a9cb410ff61f20015ad" := by
  decide +kernel

theorem printable_hexdigest (m : List Nat) : Printable (hexdigest m) := by
  have h8 : ∀ n, Printable (fixed 16 8 n) := printable_fixed (by decide) (by decide) 8
  simp only [hexdigest, List.flatMap_cons, List.flatMap_nil, printable_append, h8, printable_nil,
    and_self]

end Sha256

end Theory
