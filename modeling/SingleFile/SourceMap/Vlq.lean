import SingleFile.Number.Power
import SingleFile.Text.Search

/-!
# Variable length quantities

A whole number is written as base 64 digits of five bits each, lowest first, where the sixth bit
says that another digit follows.  The lowest bit of the number is its sign.  `decode` reads all
numbers of a segment in 64 bits; `encode` writes one number.
-/

namespace SingleFile.Vlq

def alphabet : List Char :=
  "ABCDEFGHIJKLMNOPQRSTUVWXYZabcdefghijklmnopqrstuvwxyz0123456789+/".toList

def digit (n : Nat) : Char := alphabet.getD n 'A'

def digitValue? (c : Char) : Option Nat :=
  if 'A' ≤ c ∧ c ≤ 'Z' then some (c.toNat - 65)
  else if 'a' ≤ c ∧ c ≤ 'z' then some (c.toNat - 71)
  else if '0' ≤ c ∧ c ≤ '9' then some (c.toNat + 4)
  else if c = '+' then some 62
  else if c = '/' then some 63
  else none

/-- Why a segment does not decode. -/
inductive Failure where
  | leftover
  | overflow
  | noValues
deriving DecidableEq, Repr

/-- The number whose bits are `n`, in 64 bits with the sign lowest. -/
def signed (n : Nat) : Int :=
  let w := Int.bmod n (2 ^ 64)
  if w % 2 = 0 then w / 2 else -(w / 2)

/-- The digits of a text, one for each byte; a byte that is no digit has none. -/
def digits (segment : List Char) : List (Option Nat) :=
  segment.flatMap fun c => List.replicate c.utf8Size (digitValue? c)

/-- Reads numbers; `bits` and `shift` hold the part of a number read so far.  A byte that is no
digit counts as one with all its bits set. -/
def decodeFrom (bits shift : Nat) : List (Option Nat) → Except Failure (List Int)
  | [] => if shift = 0 then .ok [] else .error .leftover
  | d :: rest =>
    let value := d.getD 63
    if 64 ≤ shift then .error .overflow
    else
      let bits := bits + value % 32 * 2 ^ shift
      if 32 ≤ value then decodeFrom bits (shift + 5) rest
      else (decodeFrom 0 0 rest).map (signed bits :: ·)

/-- The numbers of a segment; there has to be at least one. -/
def decode (segment : List Char) : Except Failure (List Int) :=
  match decodeFrom 0 0 (digits segment) with
  | .ok [] => .error .noValues
  | r => r

/-- The digits of a number without sign, at most `fuel` of them. -/
def encodeBits : Nat → Nat → List Char
  | 0, n => [digit (n % 32)]
  | fuel + 1, n =>
    if n < 32 then [digit n] else digit (n % 32 + 32) :: encodeBits fuel (n / 32)

def encode (n : Int) : List Char :=
  let bits := if n < 0 then 2 * n.natAbs + 1 else 2 * n.natAbs
  encodeBits bits bits

end SingleFile.Vlq
