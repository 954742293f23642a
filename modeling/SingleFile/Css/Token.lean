import SingleFile.Json.Reader
import SingleFile.Text.Cursor

/-!
# Tokens of style sheets

`tokens` reads any text.  Faults are tokens too: a string that its line cuts off, and an address
with characters that do not belong there.  A zero character counts as the replacement character.
-/

namespace SingleFile.Css

inductive Bracket where
  | round
  | square
  | curly
deriving DecidableEq, Repr

/-- A token.  Names and strings hold what their escapes stand for. -/
inductive Token where
  | ident (name : String)
  | function (name : String)
  | atKeyword (name : String)
  | hash (name : String) (isName : Bool)
  | string (value : String)
  | badString
  | url (value : String)
  | badUrl
  | delim (c : Char)
  | number (text : String)
  | percentage (text : String)
  | dimension (text unit : String)
  | space
  | comment
  | colon
  | semicolon
  | comma
  | comparison (sign : Char)
  | commentOpen
  | commentClose
  | opening (b : Bracket)
  | closing (b : Bracket)
deriving DecidableEq, Repr

/-! ## Characters -/

def isNewline (c : Char) : Bool := c = '\n' || c = '\r' || c.toNat = 12

def isSpace (c : Char) : Bool := isNewline c || c = ' ' || c = '\t'

def startsName (c : Char) : Bool := isLetter c || c = '_' || c.toNat = 0 || c.toNat ≥ 0x80

def inName (c : Char) : Bool := startsName c || isDigit c || c = '-'

def goesOn : List Char → Bool
  | c :: _ => !isNewline c
  | [] => true

def nameNext : List Char → Bool
  | '-' :: '-' :: _ => true
  | '-' :: '\\' :: r => goesOn r
  | '-' :: c :: _ => startsName c
  | '\\' :: r => goesOn r
  | c :: _ => c ≠ '-' && startsName c
  | [] => false

def digitsNext : List Char → Bool
  | '.' :: c :: _ => isDigit c
  | c :: _ => isDigit c
  | [] => false

def replacement : Char := Char.ofNat 0xFFFD

def charOf (n : Nat) : Char :=
  if n = 0 ∨ (0xD800 ≤ n ∧ n ≤ 0xDFFF) ∨ n ≥ 0x110000 then replacement else Char.ofNat n

/-- A character as it counts in a name or string. -/
def plain (c : Char) : Char := if c.toNat = 0 then replacement else c

/-! ## Names and strings -/

/-- Where a reader of escapes stands: not in one, after a backslash, after some of the digits of a
code, or after a code that a carriage return may follow. -/
inductive Escape where
  | none
  | start
  | code (value digits : Nat)

/-- Reads a name, of which `Escape` tells what has just been read. -/
def readName : Escape → List Char → List Char × List Char
  | .none, [] => ([], [])
  | .start, [] => ([replacement], [])
  | .code n _, [] => ([charOf n], [])
  | .start, c :: r =>
    match Json.hexValue c with
    | some d => readName (.code d 1) r
    | none =>
      let (name, rest) := readName .none r
      (plain c :: name, rest)
  | .code n digits, c :: r =>
    match (if digits < 6 then Json.hexValue c else none) with
    | some d => readName (.code (16 * n + d) (digits + 1)) r
    | none =>
      if c = '\r' then
        match r with
        | '\n' :: r' =>
          let (name, rest) := readName .none r'
          (charOf n :: name, rest)
        | r =>
          let (name, rest) := readName .none r
          (charOf n :: name, rest)
      else if isSpace c then
        let (name, rest) := readName .none r
        (charOf n :: name, rest)
      else if c = '\\' then
        if goesOn r then
          let (name, rest) := readName .start r
          (charOf n :: name, rest)
        else ([charOf n], c :: r)
      else if inName c then
        let (name, rest) := readName .none r
        (charOf n :: plain c :: name, rest)
      else ([charOf n], c :: r)
  | .none, c :: r =>
    if c = '\\' then
      if goesOn r then readName .start r else ([], c :: r)
    else if inName c then
      let (name, rest) := readName .none r
      (plain c :: name, rest)
    else ([], c :: r)

/-- Reads a string up to its closing quote; nothing where its line ends first. -/
def readString (quote : Char) : Escape → List Char → Option (List Char) × List Char
  | .none, [] => (some [], [])
  | .start, [] => (some [], [])
  | .code n _, [] => (some [charOf n], [])
  | .start, '\r' :: '\n' :: r => readString quote .none r
  | .start, c :: r =>
    if isNewline c then readString quote .none r
    else match Json.hexValue c with
      | some d => readString quote (.code d 1) r
      | none =>
        let (s, rest) := readString quote .none r
        (s.map (plain c :: ·), rest)
  | .code n digits, c :: r =>
    match (if digits < 6 then Json.hexValue c else none) with
    | some d => readString quote (.code (16 * n + d) (digits + 1)) r
    | none =>
      if c = '\r' then
        match r with
        | '\n' :: r' =>
          let (s, rest) := readString quote .none r'
          (s.map (charOf n :: ·), rest)
        | r =>
          let (s, rest) := readString quote .none r
          (s.map (charOf n :: ·), rest)
      else if isSpace c then
        let (s, rest) := readString quote .none r
        (s.map (charOf n :: ·), rest)
      else if c = quote then (some [charOf n], r)
      else if c = '\\' then
        let (s, rest) := readString quote .start r
        (s.map (charOf n :: ·), rest)
      else
        let (s, rest) := readString quote .none r
        (s.map (charOf n :: plain c :: ·), rest)
  | .none, c :: r =>
    if c = quote then (some [], r)
    else if isNewline c then (none, c :: r)
    else if c = '\\' then readString quote .start r
    else
      let (s, rest) := readString quote .none r
      (s.map (plain c :: ·), rest)

/-! ## Addresses -/

def skipBadUrl : List Char → List Char
  | [] => []
  | ')' :: r => r
  | '\\' :: _ :: r => skipBadUrl r
  | _ :: r => skipBadUrl r

/-- Reads what follows white space in an address: its end, or it has a fault. -/
def endUrl : List Char → Bool × List Char
  | [] => (true, [])
  | ')' :: r => (true, r)
  | c :: r => if isSpace c then endUrl r else (false, skipBadUrl (c :: r))

def readUrl : Escape → List Char → Option (List Char) × List Char
  | .none, [] => (some [], [])
  | .start, [] => (some [replacement], [])
  | .code n _, [] => (some [charOf n], [])
  | .start, c :: r =>
    match Json.hexValue c with
    | some d => readUrl (.code d 1) r
    | none =>
      let (s, rest) := readUrl .none r
      (s.map (plain c :: ·), rest)
  | .code n digits, c :: r =>
    match (if digits < 6 then Json.hexValue c else none) with
    | some d => readUrl (.code (16 * n + d) (digits + 1)) r
    | none =>
      if isSpace c then
        let (s, rest) := readUrl .none r
        (s.map (charOf n :: ·), rest)
      else if c = ')' then (some [charOf n], r)
      else if c = '\\' then
        let (s, rest) := readUrl .start r
        (s.map (charOf n :: ·), rest)
      else
        let (s, rest) := readUrl .none r
        (s.map (charOf n :: plain c :: ·), rest)
  | .none, c :: r =>
    let n := c.toNat
    if c = ')' then (some [], r)
    else if isSpace c then
      let (fine, rest) := endUrl r
      (if fine then some [] else none, rest)
    else if c = '"' || c = '\'' || c = '(' || (1 ≤ n && n ≤ 8) || n = 11 ||
        (14 ≤ n && n ≤ 31) || n = 127 then (none, skipBadUrl (c :: r))
    else if c = '\\' then
      if goesOn r then readUrl .start r else (none, skipBadUrl (c :: r))
    else
      let (s, rest) := readUrl .none r
      (s.map (plain c :: ·), rest)

/-- Reads an address after its name and parenthesis; nothing where it is a function of a string. -/
def urlToken? (cs : List Char) : Option (Token × List Char) :=
  match cs.dropWhile isSpace with
  | '"' :: _ | '\'' :: _ => none
  | rest =>
    match readUrl .none rest with
    | (some s, rest) => some (.url (String.ofList s), rest)
    | (none, rest) => some (.badUrl, rest)

def nameToken (cs : List Char) : Token × List Char :=
  let (name, rest) := readName .none cs
  let text := String.ofList name
  match rest with
  | '(' :: r =>
    if equalFold name "url".toList then (urlToken? r).getD (.function text, r)
    else (.function text, r)
  | rest => (.ident text, rest)

/-! ## Numbers -/

def takeSign : List Char → List Char × List Char
  | '+' :: r => (['+'], r)
  | '-' :: r => (['-'], r)
  | r => ([], r)

def takeFraction : List Char → List Char × List Char
  | '.' :: c :: r =>
    if isDigit c then ('.' :: (c :: r).takeWhile isDigit, (c :: r).dropWhile isDigit)
    else ([], '.' :: c :: r)
  | r => ([], r)

def takeExponent : List Char → List Char × List Char
  | [] => ([], [])
  | e :: r =>
    if e = 'e' || e = 'E' then
      let (sign, digits) := takeSign r
      match digits.takeWhile isDigit with
      | [] => ([], e :: r)
      | ds => (e :: sign ++ ds, digits.dropWhile isDigit)
    else ([], e :: r)

def numberToken (cs : List Char) : Token × List Char :=
  let (sign, r) := takeSign cs
  let whole := r.takeWhile isDigit
  let (fraction, r) := takeFraction (r.dropWhile isDigit)
  let (exponent, r) := takeExponent r
  let text := String.ofList (sign ++ whole ++ fraction ++ exponent)
  match r with
  | '%' :: r => (.percentage text, r)
  | r =>
    if nameNext r then
      let (unit, rest) := readName .none r
      (.dimension text (String.ofList unit), rest)
    else (.number text, r)

/-! ## All tokens -/

def skipComment : List Char → List Char
  | [] => []
  | '*' :: '/' :: r => r
  | _ :: r => skipComment r

def comparisonToken (c : Char) : List Char → Token × List Char
  | '=' :: r => (.comparison c, r)
  | r => (.delim c, r)

def hashToken (r : List Char) : Token × List Char :=
  let isName := nameNext r
  let digit := match r with
    | c :: _ => isDigit c || c = '-'
    | [] => false
  if isName || digit then
    let (name, rest) := readName .none r
    (.hash (String.ofList name) isName, rest)
  else (.delim '#', r)

def takeToken (c : Char) (r : List Char) : Token × List Char :=
  if isSpace c then (.space, r.dropWhile isSpace)
  else if digitsNext (c :: r) then numberToken (c :: r)
  else match c, r with
    | '"', r | '\'', r =>
      match readString c .none r with
      | (some s, rest) => (.string (String.ofList s), rest)
      | (none, rest) => (.badString, rest)
    | '#', r => hashToken r
    | '(', r => (.opening .round, r)
    | ')', r => (.closing .round, r)
    | '[', r => (.opening .square, r)
    | ']', r => (.closing .square, r)
    | '\x7b', r => (.opening .curly, r)
    | '\x7d', r => (.closing .curly, r)
    | ',', r => (.comma, r)
    | ':', r => (.colon, r)
    | ';', r => (.semicolon, r)
    | '/', '*' :: r => (.comment, skipComment r)
    | '<', '!' :: '-' :: '-' :: r => (.commentOpen, r)
    | '@', r =>
      if nameNext r then
        let (name, rest) := readName .none r
        (.atKeyword (String.ofList name), rest)
      else (.delim '@', r)
    | '+', r => if digitsNext r then numberToken ('+' :: r) else (.delim '+', r)
    | '-', r =>
      if digitsNext r then numberToken ('-' :: r)
      else match r with
        | '-' :: '>' :: r => (.commentClose, r)
        | r => if nameNext ('-' :: r) then nameToken ('-' :: r) else (.delim '-', r)
    | '~', r | '|', r | '^', r | '$', r | '*', r => comparisonToken c r
    | c, r => if nameNext (c :: r) then nameToken (c :: r) else (.delim c, r)

/-- Reads tokens; `fuel` is more than the number of characters. -/
def readTokens : Nat → List Char → List Token
  | 0, _ => []
  | _ + 1, [] => []
  | fuel + 1, c :: r =>
    let (token, rest) := takeToken c r
    token :: readTokens fuel rest

def tokens (css : String) : List Token := readTokens (css.length + 1) css.toList

end SingleFile.Css
