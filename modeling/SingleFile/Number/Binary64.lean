import SingleFile.Number.Power

/-!
# Double precision numbers

A finite number of IEEE double precision is a sign, a significand below `2^53` and an exponent.
All arithmetic is exact in natural numbers, followed by one rounding to the nearest double,
ties to even.  `ofDecimal` reads digits and a power of ten, `digits` finds the fewest digits
that read back, and `text` writes them.
-/

namespace SingleFile

/-- The number `± significand * 2 ^ exponent`. -/
structure Binary64 where
  negative : Bool
  significand : Nat
  exponent : Int
deriving DecidableEq, Repr

namespace Binary64

def minExponent : Int := -1074

def zero (negative : Bool) : Binary64 := ⟨negative, 0, minExponent⟩

def bitLength (n : Nat) : Nat := if n = 0 then 0 else n.log2 + 1

/-- The quotient rounded to the nearest natural number, ties to even. -/
def roundDiv (num den : Nat) : Nat :=
  let q := num / den
  let r := num % den
  if 2 * r < den then q else if den < 2 * r then q + 1 else if q % 2 = 0 then q else q + 1

/-- `num / den` in units of `2 ^ e`, rounded. -/
def quotientAt (num den : Nat) (e : Int) : Nat :=
  if 0 ≤ e then roundDiv num (den * 2 ^ e.toNat) else roundDiv (num * 2 ^ (-e).toNat) den

/-- The double nearest to `num / den`; nothing where it is too large. -/
def ofRatio (negative : Bool) (num den : Nat) : Option Binary64 :=
  if num = 0 then some (zero negative) else
  -- the quotient lies between `2 ^ (lead - 1)` and `2 ^ (lead + 1)`
  let lead : Int := (bitLength num : Int) - (bitLength den : Int)
  let e₀ := max minExponent (lead - 53)
  let e := if 2 ^ 53 ≤ quotientAt num den e₀ then e₀ + 1 else e₀
  let m := quotientAt num den e
  let (m, e) := if m = 2 ^ 53 then (2 ^ 52, e + 1) else (m, e)
  if 971 < e then none
  else some ⟨negative, m, e⟩

def ofNat (n : Nat) : Option Binary64 := ofRatio false n 1

/-- The magnitude as a quotient of natural numbers. -/
def ratio (x : Binary64) : Nat × Nat :=
  if 0 ≤ x.exponent then (x.significand * 2 ^ x.exponent.toNat, 1)
  else (x.significand, 2 ^ (-x.exponent).toNat)

/-- The product rounded to the nearest double; nothing where it is too large. -/
def mul (x y : Binary64) : Option Binary64 :=
  let (a, b) := x.ratio
  let (c, d) := y.ratio
  ofRatio (x.negative != y.negative) (a * c) (b * d)

/-- The quotient rounded to the nearest double, for a divisor that is not zero. -/
def div (x y : Binary64) : Option Binary64 :=
  let (a, b) := x.ratio
  let (c, d) := y.ratio
  ofRatio (x.negative != y.negative) (a * d) (b * c)

def powerOfTen (n : Nat) : Option Binary64 := ofNat (10 ^ n)

/-- Divides by `10 ^ 308` until the exponent that is left has a double power of ten, at most
`fuel` times. -/
def scaleDown : Nat → Binary64 → Nat → Option Binary64
  | 0, x, _ => some x
  | fuel + 1, x, n =>
    if n ≤ 308 then (powerOfTen n).bind x.div
    else if x.significand = 0 then some x
    else do scaleDown fuel (← x.div (← powerOfTen 308)) (n - 308)

/-- `significand * 10 ^ exponent`: the significand is rounded first, and then once more for each
power of ten that it is multiplied with or divided by.  Nothing where the result is too large. -/
def ofDecimal (negative : Bool) (significand : Nat) (exponent : Int) : Option Binary64 := do
  let x ← ofNat significand
  let y ←
    if 0 ≤ exponent then
      if exponent ≤ 308 then x.mul (← powerOfTen exponent.toNat)
      else if significand = 0 then some x else none
    else scaleDown 4 x (-exponent).toNat
  pure { y with negative }

/-- Whether `d * 10 ^ k` lies in the interval of numbers that round to `± m * 2 ^ e`. -/
def reads (m : Nat) (e : Int) (d : Nat) (k : Int) : Bool :=
  -- the interval is from `low / 4` to `high / 4`, in units of `2 ^ e`
  let low := if m = 2 ^ 52 ∧ minExponent < e then 4 * m - 1 else 4 * m - 2
  let high := 4 * m + 2
  let scale := fun (a : Nat) (b : Int) (c : Int) =>
    a * 2 ^ (max b 0).toNat * 10 ^ (max c 0).toNat
  -- compare `4 * d * 10 ^ k` with `low * 2 ^ e`
  let middle := scale (4 * d) (-e) k
  let lo := scale low e (-k)
  let hi := scale high e (-k)
  if m % 2 = 0 then lo ≤ middle && middle ≤ hi else lo < middle && middle < hi

/-- Of the two grid points `d * 10 ^ k` and `(d + 1) * 10 ^ k` around the number, the one that
reads back, and the nearer one where both do. -/
def nearestOnGrid (num den : Nat) (m : Nat) (e k : Int) : Option Nat :=
  let a := num * 10 ^ (max (-k) 0).toNat
  let b := den * 10 ^ (max k 0).toNat
  let d := a / b
  let r := a % b
  match reads m e d k, reads m e (d + 1) k with
  | true, true =>
    some (if 2 * r < b then d else if b < 2 * r then d + 1 else if d % 2 = 0 then d else d + 1)
  | true, false => some d
  | false, true => some (d + 1)
  | false, false => none

/-- The coarsest grid, from `10 ^ k` down, on which a point reads back. -/
def searchGrids (num den m : Nat) (e : Int) : Nat → Int → Nat × Int
  | 0, k => (m, k)
  | fuel + 1, k =>
    match nearestOnGrid num den m e k with
    | some d => if d = 0 then searchGrids num den m e fuel (k - 1) else (d, k)
    | none => searchGrids num den m e fuel (k - 1)

/-- Drops zeros from the end of a number, counting them into the exponent. -/
def dropZeros : Nat → Nat → Int → Nat × Int
  | 0, d, k => (d, k)
  | fuel + 1, d, k => if d % 10 = 0 then dropZeros fuel (d / 10) (k + 1) else (d, k)

/-- The fewest decimal digits that read back, as a number and a power of ten. -/
def digits (x : Binary64) : Nat × Int :=
  let (num, den) := x.ratio
  -- one power of ten above the number
  let top : Int := ((bitLength num : Int) - (bitLength den : Int)) * 30103 / 100000 + 2
  let (d, k) := searchGrids num den x.significand x.exponent 25 top
  dropZeros 25 d k

def decimal (n : Nat) : List Char := Nat.toDigits 10 n

/-- The fewest digits that read back: with a point and at least one decimal from `1e-5` up to but
not including `1e16`, otherwise with an exponent that shows a plus sign. -/
def text (x : Binary64) : String :=
  let sign := if x.negative then ['-'] else []
  if x.significand = 0 then String.ofList (sign ++ ['0', '.', '0']) else
  let (d, k) := x.digits
  let ds := decimal d
  -- the number is `0.ds * 10 ^ point`
  let point : Int := ds.length + k
  let body :=
    if 0 < point ∧ point ≤ 16 then
      let n := point.toNat
      if ds.length ≤ n then ds ++ List.replicate (n - ds.length) '0' ++ ['.', '0']
      else ds.take n ++ '.' :: ds.drop n
    else if -5 < point ∧ point ≤ 0 then
      ['0', '.'] ++ List.replicate (-point).toNat '0' ++ ds
    else
      let e := point - 1
      let tail := if e < 0 then '-' :: decimal (-e).toNat else '+' :: decimal e.toNat
      match ds with
      | [] => []
      | [c] => c :: 'e' :: tail
      | c :: r => c :: '.' :: r ++ 'e' :: tail
  String.ofList (sign ++ body)

end Binary64

end SingleFile
