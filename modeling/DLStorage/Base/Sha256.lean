import Mathlib.Data.List.Basic

/-!
# SHA-256

The digest that the ring scores its nodes with: padding to blocks of 64 bytes, and for every block 64 rounds on eight
words.  The schedule of a block is kept as a window of the 16 words that the next rounds need.
-/

namespace Base.Sha256

/-- One constant for each round. -/
def roundConstants : List UInt32 :=
  [0x428a2f98, 0x71374491, 0xb5c0fbcf, 0xe9b5dba5, 0x3956c25b, 0x59f111f1, 0x923f82a4, 0xab1c5ed5,
   0xd807aa98, 0x12835b01, 0x243185be, 0x550c7dc3, 0x72be5d74, 0x80deb1fe, 0x9bdc06a7, 0xc19bf174,
   0xe49b69c1, 0xefbe4786, 0x0fc19dc6, 0x240ca1cc, 0x2de92c6f, 0x4a7484aa, 0x5cb0a9dc, 0x76f988da,
   0x983e5152, 0xa831c66d, 0xb00327c8, 0xbf597fc7, 0xc6e00bf3, 0xd5a79147, 0x06ca6351, 0x14292967,
   0x27b70a85, 0x2e1b2138, 0x4d2c6dfc, 0x53380d13, 0x650a7354, 0x766a0abb, 0x81c2c92e, 0x92722c85,
   0xa2bfe8a1, 0xa81a664b, 0xc24b8b70, 0xc76c51a3, 0xd192e819, 0xd6990624, 0xf40e3585, 0x106aa070,
   0x19a4c116, 0x1e376c08, 0x2748774c, 0x34b0bcb5, 0x391c0cb3, 0x4ed8aa4a, 0x5b9cca4f, 0x682e6ff3,
   0x748f82ee, 0x78a5636f, 0x84c87814, 0x8cc70208, 0x90befffa, 0xa4506ceb, 0xbef9a3f7, 0xc67178f2]

/-- The eight working words. -/
structure Words where
  a : UInt32
  b : UInt32
  c : UInt32
  d : UInt32
  e : UInt32
  f : UInt32
  g : UInt32
  h : UInt32

def Words.initial : Words :=
  ⟨0x6a09e667, 0xbb67ae85, 0x3c6ef372, 0xa54ff53a,
   0x510e527f, 0x9b05688c, 0x1f83d9ab, 0x5be0cd19⟩

def Words.add (x y : Words) : Words :=
  ⟨x.a + y.a, x.b + y.b, x.c + y.c, x.d + y.d, x.e + y.e, x.f + y.f, x.g + y.g, x.h + y.h⟩

def rotateRight (x : UInt32) (n : UInt32) : UInt32 := (x >>> n) ||| (x <<< (32 - n))

/-- One round with the constant `k` and the schedule word `w`. -/
def round (s : Words) (k w : UInt32) : Words :=
  let s1 := rotateRight s.e 6 ^^^ rotateRight s.e 11 ^^^ rotateRight s.e 25
  let ch := (s.e &&& s.f) ^^^ (~~~s.e &&& s.g)
  let t1 := s.h + s1 + ch + k + w
  let s0 := rotateRight s.a 2 ^^^ rotateRight s.a 13 ^^^ rotateRight s.a 22
  let maj := (s.a &&& s.b) ^^^ (s.a &&& s.c) ^^^ (s.b &&& s.c)
  ⟨t1 + (s0 + maj), s.a, s.b, s.c, s.d + t1, s.e, s.f, s.g⟩

/-- Move the window one word on. -/
def slide (window : List UInt32) : List UInt32 :=
  let w := fun i => window.getD i 0
  let s0 := rotateRight (w 1) 7 ^^^ rotateRight (w 1) 18 ^^^ (w 1 >>> 3)
  let s1 := rotateRight (w 14) 17 ^^^ rotateRight (w 14) 19 ^^^ (w 14 >>> 10)
  window.tail ++ [w 0 + s0 + w 9 + s1]

/-- The rounds with the given constants. -/
def rounds : List UInt32 → List UInt32 → Words → Words
  | [], _, s => s
  | k :: ks, window, s => rounds ks (slide window) (round s k (window.headD 0))

def compress (s : Words) (block : List UInt32) : Words := s.add (rounds roundConstants block s)

/-- Big-endian words. -/
def words : List UInt8 → List UInt32
  | b₀ :: b₁ :: b₂ :: b₃ :: bs =>
    (b₀.toUInt32 <<< 24 ||| b₁.toUInt32 <<< 16 ||| b₂.toUInt32 <<< 8 ||| b₃.toUInt32) :: words bs
  | _ => []

/-- The `n` big-endian bytes of a number. -/
def bytes : Nat → Nat → List UInt8
  | 0, _ => []
  | n + 1, x => bytes n (x / 256) ++ [UInt8.ofNat x]

/-- The message followed by a one bit, zeros and its length in bits. -/
def pad (message : List UInt8) : List UInt8 :=
  message ++ 0x80 :: List.replicate ((119 - message.length % 64) % 64) 0 ++ bytes 8 (8 * message.length)

/-- Compress the first `n` blocks. -/
def digestBlocks : Nat → List UInt32 → Words → Words
  | 0, _, s => s
  | n + 1, ws, s => digestBlocks n (ws.drop 16) (compress s (ws.take 16))

def digest (message : List UInt8) : List UInt8 :=
  let ws := words (pad message)
  let s := digestBlocks (ws.length / 16) ws .initial
  [s.a, s.b, s.c, s.d, s.e, s.f, s.g, s.h].flatMap (fun w => bytes 4 w.toNat)

end Base.Sha256
