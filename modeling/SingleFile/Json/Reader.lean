import SingleFile.Json.Basic

/-!
# Reading JSON

`Json.parse` reads one value and nothing after it, as serde_json does.  Strings may not hold control
characters or half a surrogate pair, numbers may not be too large for a double, and arrays and objects
nest at most 127 deep.  A text that is refused is refused without a reason or a place.

A number without fraction and exponent that fits 64 bits is kept exactly.  Of any other number the
digits are gathered into a significand of 64 bits; the digits that do not fit any more only move
the point.
-/

namespace SingleFile.Json

/-- The four characters that may stand between the parts of a value. -/
def isSpace (c : Char) : Bool := c = ' ' || c = '\n' || c = '\t' || c = '\r'

def skipSpace (cs : List Char) : List Char := cs.dropWhile isSpace

def hexValue (c : Char) : Option Nat :=
  if '0' ≤ c ∧ c ≤ '9' then some (c.toNat - 48)
  else if 'a' ≤ c ∧ c ≤ 'f' then some (c.toNat - 87)
  else if 'A' ≤ c ∧ c ≤ 'F' then some (c.toNat - 55)
  else none

def hexValue4 (a b c d : Char) : Option Nat := do
  pure ((((← hexValue a) * 16 + (← hexValue b)) * 16 + (← hexValue c)) * 16 + (← hexValue d))

/-- The character that a letter after a backslash stands for. -/
def escaped (c : Char) : Option Char :=
  if c = '"' ∨ c = '\\' ∨ c = '/' then some c
  else if c = 'b' then some (Char.ofNat 8)
  else if c = 'f' then some (Char.ofNat 12)
  else if c = 'n' then some '\n'
  else if c = 'r' then some '\r'
  else if c = 't' then some '\t'
  else none

/-- Reads a string after its opening quote; gives its characters and the rest of the text. -/
def readString : List Char → Option (List Char × List Char)
  | '"' :: rest => some ([], rest)
  | '\\' :: 'u' :: a :: b :: c :: d :: rest =>
    match hexValue4 a b c d with
    | none => none
    | some n =>
      if 0xD800 ≤ n ∧ n < 0xDC00 then
        match rest with
        | '\\' :: 'u' :: e :: f :: g :: h :: rest' =>
          match hexValue4 e f g h with
          | none => none
          | some m =>
            if 0xDC00 ≤ m ∧ m < 0xE000 then
              (readString rest').map fun (cs, r) =>
                (Char.ofNat (0x10000 + (n - 0xD800) * 0x400 + (m - 0xDC00)) :: cs, r)
            else none
        | _ => none
      else if 0xDC00 ≤ n ∧ n < 0xE000 then none
      else (readString rest).map fun (cs, r) => (Char.ofNat n :: cs, r)
  | '\\' :: c :: rest =>
    match escaped c with
    | none => none
    | some ch => (readString rest).map fun (cs, r) => (ch :: cs, r)
  | c :: rest =>
    if c.toNat < 32 then none else (readString rest).map fun (cs, r) => (c :: cs, r)
  | [] => none

def digitValue (c : Char) : Nat := c.toNat - 48

def maxNatural : Nat := 2 ^ 64 - 1

/-- Gathers the digits before the point; gives the significand and the number of digits left
out. -/
def gatherWhole : Nat → List Char → Nat × Nat
  | s, [] => (s, 0)
  | s, c :: r =>
    if s * 10 + digitValue c ≤ maxNatural then gatherWhole (s * 10 + digitValue c) r
    else (s, r.length + 1)

/-- Gathers the digits after the point; gives the significand and the number of digits taken. -/
def gatherFraction : Nat → List Char → Nat × Nat
  | s, [] => (s, 0)
  | s, c :: r =>
    if s * 10 + digitValue c ≤ maxNatural then
      let (t, n) := gatherFraction (s * 10 + digitValue c) r
      (t, n + 1)
    else (s, 0)

/-- The number written by a sign, digits before and after the point, and an exponent. -/
def numberOf (negative : Bool) (whole : List Char) (fraction : Option (List Char))
    (exponent : Option Int) : Option Number :=
  let (s, dropped) := gatherWhole 0 whole
  match fraction, exponent with
  | none, none =>
    if dropped = 0 then
      if !negative then some (.natural s)
      else if 0 < s ∧ s ≤ 2 ^ 63 then some (.negative s)
      else (Binary64.ofDecimal true s 0).map .real
    else (Binary64.ofDecimal negative s dropped).map .real
  | _, _ =>
    let (t, taken) := gatherFraction s (fraction.getD [])
    (Binary64.ofDecimal negative t ((dropped : Int) - taken + exponent.getD 0)).map .real

/-- Splits off the decimal digits that a text starts with. -/
def spanDigits (cs : List Char) : List Char × List Char :=
  (cs.takeWhile Char.isDigit, cs.dropWhile Char.isDigit)

/-- Reads the exponent of a number, after its `e`. -/
def readExponent (cs : List Char) : Option (Int × List Char) :=
  let (negative, cs) := match cs with
    | '-' :: r => (true, r)
    | '+' :: r => (false, r)
    | r => (false, r)
  let (ds, rest) := spanDigits cs
  if ds.isEmpty then none
  else
    let n : Int := ds.foldl (fun n c => n * 10 + digitValue c) 0
    some (if negative then -n else n, rest)

def readNumber (cs : List Char) : Option (Number × List Char) := do
  let (negative, cs) := match cs with
    | '-' :: r => (true, r)
    | r => (false, r)
  let (whole, rest) := spanDigits cs
  guard (!whole.isEmpty && (whole.head? != some '0' || whole.length == 1))
  let (fraction, rest) ← match rest with
    | '.' :: r =>
      let (ds, r) := spanDigits r
      if ds.isEmpty then none else some (some ds, r)
    | r => some (none, r)
  let (exponent, rest) ← match rest with
    | 'e' :: r => (readExponent r).map fun (e, r) => (some e, r)
    | 'E' :: r => (readExponent r).map fun (e, r) => (some e, r)
    | r => some (none, r)
  pure (← numberOf negative whole fraction exponent, rest)

mutual

/-- Reads a value that may hold arrays and objects nested less than `depth` deep. -/
def readValue (depth : Nat) : Nat → List Char → Option (Json × List Char)
  | 0, _ => none
  | fuel + 1, cs =>
    match skipSpace cs with
    | 'n' :: 'u' :: 'l' :: 'l' :: r => some (.null, r)
    | 't' :: 'r' :: 'u' :: 'e' :: r => some (.bool true, r)
    | 'f' :: 'a' :: 'l' :: 's' :: 'e' :: r => some (.bool false, r)
    | '"' :: r => (readString r).map fun (s, r) => (.string (String.ofList s), r)
    | '[' :: r =>
      if depth ≤ 1 then none
      else match skipSpace r with
        | ']' :: r => some (.array [], r)
        | r => (readItems (depth - 1) fuel r).map fun (vs, r) => (.array vs, r)
    | '{' :: r =>
      if depth ≤ 1 then none
      else match skipSpace r with
        | '}' :: r => some (.object [], r)
        | r => (readFields (depth - 1) fuel r).map fun (fs, r) => (.object fs, r)
    | r => (readNumber r).map fun (n, r) => (.number n, r)

def readItems (depth : Nat) : Nat → List Char → Option (List Json × List Char)
  | 0, _ => none
  | fuel + 1, cs =>
    match readValue depth fuel cs with
    | none => none
    | some (v, r) =>
      match skipSpace r with
      | ',' :: r => (readItems depth fuel r).map fun (vs, r) => (v :: vs, r)
      | ']' :: r => some ([v], r)
      | _ => none

def readFields (depth : Nat) : Nat → List Char → Option (List (String × Json) × List Char)
  | 0, _ => none
  | fuel + 1, cs =>
    match skipSpace cs with
    | '"' :: r =>
      match readString r with
      | none => none
      | some (k, r) =>
        match skipSpace r with
        | ':' :: r =>
          match readValue depth fuel r with
          | none => none
          | some (v, r) =>
            let field := (String.ofList k, v)
            match skipSpace r with
            | ',' :: r => (readFields depth fuel r).map fun (fs, r) => (field :: fs, r)
            | '}' :: r => some ([field], r)
            | _ => none
        | _ => none
    | _ => none

end

/-- Arrays and objects may nest one less deep than this. -/
def depthLimit : Nat := 128

def parseChars (cs : List Char) : Option Json :=
  match readValue depthLimit (cs.length + 1) cs with
  | some (v, rest) => if (skipSpace rest).isEmpty then some v else none
  | none => none

def parse (text : String) : Option Json := parseChars text.toList

end SingleFile.Json
