/-!
# Blocks of bytes

Both digests read a text in blocks of 64 bytes, as words of 32 bits, after it has been filled up:
one bit, zeros, and the length of the text in bits.
-/

namespace SingleFile.Digest

/-- The pieces of `size` items each that a list is made of; `fuel` bounds their number. -/
def pieces (size : Nat) : Nat → List α → List (List α)
  | 0, _ => []
  | _, [] => []
  | fuel + 1, xs => xs.take size :: pieces size fuel (xs.drop size)

/-- A number as `count` bytes, the lowest first. -/
def littleBytes : Nat → Nat → List UInt8
  | 0, _ => []
  | count + 1, n => UInt8.ofNat (n % 256) :: littleBytes count (n / 256)

def bigNumber (bytes : List UInt8) : Nat := bytes.foldl (fun n b => 256 * n + b.toNat) 0

/-- A text filled up to whole blocks; `lengthBytes` writes its length in bits. -/
def fillUp (lengthBytes : Nat → List UInt8) (bytes : List UInt8) : List UInt8 :=
  let zeros := (119 - bytes.length % 64) % 64
  bytes ++ 0x80 :: (List.replicate zeros 0 ++ lengthBytes (8 * bytes.length))

/-- The blocks of a text that has been filled up, as words. -/
def blocks (word : List UInt8 → UInt32) (bytes : List UInt8) : List (List UInt32) :=
  (pieces 64 (bytes.length / 64 + 1) bytes).map fun block => (pieces 4 16 block).map word

/-- The item at a place of a list of words, or zero. -/
def wordAt (words : List UInt32) (i : Nat) : UInt32 := words.getD i 0

def rotateLeft (x : UInt32) (n : UInt32) : UInt32 := (x <<< n) ||| (x >>> (32 - n))

def rotateRight (x : UInt32) (n : UInt32) : UInt32 := rotateLeft x (32 - n)

/-- The two hexadecimal digits of a byte, in small letters. -/
def hexByte (b : UInt8) : List Char :=
  let digit (n : Nat) : Char := if n < 10 then Char.ofNat (48 + n) else Char.ofNat (87 + n)
  [digit (b.toNat / 16), digit (b.toNat % 16)]

def hexText (bytes : List UInt8) : String := String.ofList (bytes.flatMap hexByte)

end SingleFile.Digest
