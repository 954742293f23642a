import SingleFile.Digest.Blocks

/-!
# SHA-256

The digest of 256 bits, by its standard.
-/

namespace SingleFile.Digest.Sha256

/-- The first words of the fractions of the cube roots of the first 64 primes. -/
def constants : List UInt32 :=
  [0x428a2f98, 0x71374491, 0xb5c0fbcf, 0xe9b5dba5, 0x3956c25b, 0x59f111f1,
   0x923f82a4, 0xab1c5ed5, 0xd807aa98, 0x12835b01, 0x243185be, 0x550c7dc3,
   0x72be5d74, 0x80deb1fe, 0x9bdc06a7, 0xc19bf174, 0xe49b69c1, 0xefbe4786,
   0x0fc19dc6, 0x240ca1cc, 0x2de92c6f, 0x4a7484aa, 0x5cb0a9dc, 0x76f988da,
   0x983e5152, 0xa831c66d, 0xb00327c8, 0xbf597fc7, 0xc6e00bf3, 0xd5a79147,
   0x06ca6351, 0x14292967, 0x27b70a85, 0x2e1b2138, 0x4d2c6dfc, 0x53380d13,
   0x650a7354, 0x766a0abb, 0x81c2c92e, 0x92722c85, 0xa2bfe8a1, 0xa81a664b,
   0xc24b8b70, 0xc76c51a3, 0xd192e819, 0xd6990624, 0xf40e3585, 0x106aa070,
   0x19a4c116, 0x1e376c08, 0x2748774c, 0x34b0bcb5, 0x391c0cb3, 0x4ed8aa4a,
   0x5b9cca4f, 0x682e6ff3, 0x748f82ee, 0x78a5636f, 0x84c87814, 0x8cc70208,
   0x90befffa, 0xa4506ceb, 0xbef9a3f7, 0xc67178f2]

/-- The first words of the fractions of the square roots of the first 8 primes. -/
def start : List UInt32 :=
  [0x6a09e667, 0xbb67ae85, 0x3c6ef372, 0xa54ff53a, 0x510e527f, 0x9b05688c,
   0x1f83d9ab, 0x5be0cd19]

structure State where
  a : UInt32
  b : UInt32
  c : UInt32
  d : UInt32
  e : UInt32
  f : UInt32
  g : UInt32
  h : UInt32

def State.ofWords (w : List UInt32) : State :=
  ⟨wordAt w 0, wordAt w 1, wordAt w 2, wordAt w 3, wordAt w 4, wordAt w 5, wordAt w 6, wordAt w 7⟩

def State.words (s : State) : List UInt32 := [s.a, s.b, s.c, s.d, s.e, s.f, s.g, s.h]

/-- The next word of the schedule, from the sixteen words before it. -/
def nextWord (w : List UInt32) : UInt32 :=
  let x := wordAt w 1
  let y := wordAt w 14
  let s0 := rotateRight x 7 ^^^ rotateRight x 18 ^^^ (x >>> 3)
  let s1 := rotateRight y 17 ^^^ rotateRight y 19 ^^^ (y >>> 10)
  wordAt w 0 + s0 + wordAt w 9 + s1

/-- The words of a block and those that are made from them. -/
def schedule : Nat → List UInt32 → List UInt32
  | 0, _ => []
  | _, [] => []
  | count + 1, x :: rest => x :: schedule count (rest ++ [nextWord (x :: rest)])

/-- One round, with a constant and a word of the schedule. -/
def round (s : State) (k w : UInt32) : State :=
  let s1 := rotateRight s.e 6 ^^^ rotateRight s.e 11 ^^^ rotateRight s.e 25
  let choice := (s.e &&& s.f) ^^^ (~~~ s.e &&& s.g)
  let t1 := s.h + s1 + choice + k + w
  let s0 := rotateRight s.a 2 ^^^ rotateRight s.a 13 ^^^ rotateRight s.a 22
  let majority := (s.a &&& s.b) ^^^ (s.a &&& s.c) ^^^ (s.b &&& s.c)
  ⟨t1 + (s0 + majority), s.a, s.b, s.c, s.d + t1, s.e, s.f, s.g⟩

def compress (state block : List UInt32) : List UInt32 :=
  let last := (List.zip constants (schedule 64 block)).foldl (fun s kw => round s kw.1 kw.2)
    (State.ofWords state)
  List.zipWith (· + ·) state last.words

def digest (bytes : List UInt8) : List UInt8 :=
  let filled := fillUp (fun n => (littleBytes 8 n).reverse) bytes
  let state := (blocks (fun b => UInt32.ofNat (bigNumber b)) filled).foldl compress start
  state.flatMap fun w => (littleBytes 4 w.toNat).reverse

end SingleFile.Digest.Sha256
