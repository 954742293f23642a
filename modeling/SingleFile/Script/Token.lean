import SingleFile.Json.Reader
import SingleFile.Text.Cursor
import SingleFile.Text.Unicode

/-!
# Tokens of a script

`readToken` skips white space and comments and takes the token that follows.  A slash is always
read as a sign: where the grammar wants a regular expression or a template it goes on from there
with `readPattern` and `readTemplate`.

Offsets are in bytes.  A problem that does not stop the reading is given by its offset; a token
that cannot be read is `broken` at the offset of what is wrong with it.
-/

namespace SingleFile.Script

inductive Lexeme where
  | word (text : String) (escaped : Bool)
  | sign (text : String)
  | number
  | string (raw : String)
  | finish
  | broken (offset : Nat)
deriving DecidableEq, Repr

/-- A token with its span, and whether a line break stands before it. -/
structure Token where
  lexeme : Lexeme
  start : Nat
  stop : Nat
  afterBreak : Bool
deriving DecidableEq, Repr

def endsLine (c : Char) : Bool :=
  c = '\n' || c = '\r' || c.toNat = 0x2028 || c.toNat = 0x2029

/-- The white space between tokens, line ends apart. -/
def isGap (c : Char) : Bool :=
  let n := c.toNat
  n = 9 || n = 11 || n = 12 || n = 0x20 || n = 0xA0 || n = 0xFEFF || n = 0x1680 ||
  (0x2000 ≤ n && n ≤ 0x200A) || n = 0x202F || n = 0x205F || n = 0x3000

def startsName (c : Char) : Bool := c = '$' || c = '_' || Unicode.startsIdentifier c

def inName (c : Char) : Bool :=
  c = '$' || Unicode.inIdentifier c || c.toNat = 0x200C || c.toNat = 0x200D

/-! ## White space and comments -/

inductive Gap where
  | space
  | line
  | block (star : Bool)
deriving DecidableEq, Repr

structure AfterGap where
  afterBreak : Bool
  offset : Nat
  rest : List Char
  problems : List Nat

/-- Skips white space and comments.  Comments in the style of markup are skipped as well, but they
are a problem in a module. -/
def skipGap : Gap → Bool → Nat → List Char → AfterGap
  | .block _, afterBreak, offset, [] => ⟨afterBreak, offset, [], [offset]⟩
  | _, afterBreak, offset, [] => ⟨afterBreak, offset, [], []⟩
  | .line, afterBreak, offset, c :: r =>
    if endsLine c then skipGap .space true (offset + c.utf8Size) r
    else skipGap .line afterBreak (offset + c.utf8Size) r
  | .block star, afterBreak, offset, c :: r =>
    if star && c = '/' then skipGap .space afterBreak (offset + 1) r
    else skipGap (.block (c = '*')) (afterBreak || endsLine c) (offset + c.utf8Size) r
  | .space, afterBreak, offset, '/' :: '/' :: r => skipGap .line afterBreak (offset + 2) r
  | .space, afterBreak, offset, '/' :: '*' :: r => skipGap (.block false) afterBreak (offset + 2) r
  | .space, afterBreak, offset, '<' :: '!' :: '-' :: '-' :: r =>
    let after := skipGap .line afterBreak (offset + 4) r
    { after with problems := offset :: after.problems }
  | .space, true, offset, '-' :: '-' :: '>' :: r =>
    let after := skipGap .line true (offset + 3) r
    { after with problems := offset :: after.problems }
  | .space, afterBreak, offset, c :: r =>
    if endsLine c then skipGap .space true (offset + c.utf8Size) r
    else if isGap c then skipGap .space afterBreak (offset + c.utf8Size) r
    else ⟨afterBreak, offset, c :: r, []⟩

/-! ## Words -/

/-- A token without its start: what it is, where it ends, what is left, and problems. -/
structure Taken where
  lexeme : Lexeme
  offset : Nat
  rest : List Char
  problems : List Nat := []

/-- Whether the reader of a word stands in it, or in the braces of an escape that started at
`start`. -/
inductive InWord where
  | plain
  | braces (start : Nat) (value : Nat) (any : Bool)

def Taken.cons (c : Char) (escaped : Bool) (t : Taken) : Taken :=
  match t.lexeme with
  | .word text e => { t with lexeme := .word (String.ofList (c :: text.toList)) (e || escaped) }
  | _ => t

def wordChar? (first : Bool) (n : Nat) : Option Char :=
  if n < 0xD800 ∨ (0xE000 ≤ n ∧ n < 0x110000) then
    let c := Char.ofNat n
    if (if first then startsName c else inName c) then some c else none
  else none

/-- Reads a word; `first` says that none of its characters has been read yet. -/
def readWord : InWord → Bool → Nat → List Char → Taken
  | .plain, _, offset, [] => ⟨.word "" false, offset, [], []⟩
  | .braces start _ _, _, offset, [] => ⟨.broken start, offset, [], []⟩
  | .braces start value digits, first, offset, c :: r =>
    if c = '}' then
      match digits, wordChar? first value with
      | true, some w => (readWord .plain false (offset + 1) r).cons w true
      | _, _ => ⟨.broken start, offset, c :: r, []⟩
    else
      match Json.hexValue c with
      | some d => readWord (.braces start (min (value * 16 + d) 0x110000) true) first (offset + 1) r
      | none => ⟨.broken start, offset, c :: r, []⟩
  | .plain, first, offset, '\\' :: 'u' :: '{' :: r =>
    readWord (.braces offset 0 false) first (offset + 3) r
  | .plain, first, offset, '\\' :: 'u' :: a :: b :: c :: d :: r =>
    match (Json.hexValue4 a b c d).bind (wordChar? first) with
    | some w => (readWord .plain false (offset + 6) r).cons w true
    | none => ⟨.broken offset, offset + 2, a :: b :: c :: d :: r, []⟩
  | .plain, first, offset, c :: r =>
    if c = '\\' then ⟨.broken offset, offset, c :: r, []⟩
    else if (if first then startsName c else inName c) then
      (readWord .plain false (offset + c.utf8Size) r).cons c false
    else ⟨.word "" false, offset, c :: r, []⟩

/-! ## Numbers -/

def isDigitIn (base : Nat) (c : Char) : Bool :=
  match Json.hexValue c with
  | some d => d < base
  | none => false

/-- Reads digits in a base, which single underscores may separate.  Gives what is left, the number
of characters taken, and whether all separators stand between digits. -/
def readDigits (base : Nat) : Bool → List Char → List Char × Nat × Bool
  | _, [] => ([], 0, true)
  | afterDigit, c :: r =>
    if c = '_' then
      let next := match r with
        | d :: _ => isDigitIn base d
        | [] => false
      let (rest, n, fine) := readDigits base false r
      (rest, n + 1, fine && afterDigit && next)
    else if isDigitIn base c then
      let (rest, n, fine) := readDigits base true r
      (rest, n + 1, fine)
    else (c :: r, 0, true)

/-- Ends a number: neither an identifier nor a digit may follow at once. -/
def endNumber (start offset : Nat) (rest : List Char) (fine : Bool) (more : List Nat := []) :
    Taken :=
  let problems := (if fine then [] else [start]) ++ more
  match rest with
  | c :: _ =>
    if startsName c || c = '\\' then ⟨.broken offset, offset, rest, problems⟩
    else ⟨.number, offset, rest, problems⟩
  | [] => ⟨.number, offset, rest, problems⟩

def takeBigSuffix (offset : Nat) : List Char → Nat × List Char
  | 'n' :: r => (offset + 1, r)
  | r => (offset, r)

def readExponent (start offset : Nat) (rest : List Char) (fine : Bool) : Taken :=
  let digits (taken : Nat) (r : List Char) : Taken :=
    let (rest, n, ok) := readDigits 10 false r
    if n = 0 then ⟨.broken start, offset + taken, r, []⟩
    else endNumber start (offset + taken + n) rest (fine && ok)
  let signed (r : List Char) : Taken :=
    match r with
    | '+' :: r => digits 2 r
    | '-' :: r => digits 2 r
    | r => digits 1 r
  match rest with
  | 'e' :: r => signed r
  | 'E' :: r => signed r
  | r => endNumber start offset r fine

def readBased (base start : Nat) (rest : List Char) : Taken :=
  let (rest', n, fine) := readDigits base false rest
  if n = 0 then ⟨.broken start, start + 2, rest, []⟩
  else
    let (offset, rest') := takeBigSuffix (start + 2 + n) rest'
    endNumber start offset rest' fine

def readDecimal (start : Nat) (cs : List Char) : Taken :=
  let (rest, n, fine) := readDigits 10 false cs
  let legacy := match cs with
    | '0' :: c :: _ => isDigit c || c = '_'
    | _ => false
  if legacy then endNumber start (start + n) rest fine [start]
  else
    match rest with
    | '.' :: r =>
      let (rest, m, ok) := readDigits 10 false r
      readExponent start (start + n + 1 + m) rest (fine && ok)
    | 'n' :: r => endNumber start (start + n + 1) r fine
    | r => readExponent start (start + n) r fine

def readNumber (start : Nat) : List Char → Taken
  | '0' :: 'x' :: r => readBased 16 start r
  | '0' :: 'X' :: r => readBased 16 start r
  | '0' :: 'o' :: r => readBased 8 start r
  | '0' :: 'O' :: r => readBased 8 start r
  | '0' :: 'b' :: r => readBased 2 start r
  | '0' :: 'B' :: r => readBased 2 start r
  | cs => readDecimal start cs

/-! ## Strings, templates and regular expressions -/

inductive TextEnd where
  | closed
  | substitution
  | unclosed
deriving DecidableEq, Repr

/-- What is left after a quoted text, and the offsets of the octal and of the malformed escapes in
it. -/
structure AfterText where
  ending : TextEnd
  offset : Nat
  rest : List Char
  octals : List Nat
  malformed : List Nat

/-- Where the reader of a quoted text stands: in plain text, or in an escape that started at
`start`.  `returned` is behind an escaped carriage return, to which a line feed still belongs. -/
inductive InText where
  | plain
  | returned
  | escape (start : Nat)
  | unicode (start : Nat)
  | digits (start : Nat) (more : Nat)
  | braces (start : Nat) (value : Nat) (any : Bool)

/-- The escapes that are malformed if no further character belongs to them. -/
def InText.unfinished : InText → List Nat
  | .plain | .returned => []
  | .escape start | .unicode start | .digits start _ | .braces start _ _ => [start]

/-- Where the reader stands after a character that belongs to its escape. -/
def InText.next? (c : Char) : InText → Option InText
  | .plain => none
  | .returned => if c = '\n' then some .plain else none
  | .escape start =>
    some (if c = 'u' then .unicode start else if c = 'x' then .digits start 1
      else if c = '\r' then .returned else .plain)
  | .unicode start =>
    if c = '\x7b' then some (.braces start 0 false)
    else if (Json.hexValue c).isSome then some (.digits start 2) else none
  | .digits start more =>
    if (Json.hexValue c).isSome then
      some (match more with
        | 0 => .plain
        | more + 1 => .digits start more)
    else none
  | .braces start value any =>
    match Json.hexValue c with
    | some d => some (.braces start (min (value * 16 + d) 0x110000) true)
    | none => if c = '\x7d' && any && value < 0x110000 then some .plain else none

/-- The octal escape that `c` and what follows it make of a backslash before them.  A lone zero is
the character of that number. -/
def InText.octal (c : Char) (r : List Char) : InText → List Nat
  | .escape start =>
    let digitNext := match r with
      | d :: _ => '0' ≤ d && d ≤ '7'
      | [] => false
    if ('1' ≤ c && c ≤ '7') || (c = '0' && digitNext) then [start] else []
  | _ => []

/-- Reads a quoted text up to the character that closes it; `lines` says whether line breaks may
stand in it, and whether `${` ends it.  Behind a malformed escape the reading goes on with the
first character that does not belong to it. -/
def readText (close : Char) (lines : Bool) (octals malformed : List Nat) :
    InText → Nat → List Char → AfterText
  | state, offset, [] => ⟨.unclosed, offset, [], octals, malformed ++ state.unfinished⟩
  | state, offset, c :: r =>
    match state.next? c with
    | some next =>
      readText close lines (octals ++ state.octal c r) malformed next (offset + c.utf8Size) r
    | none =>
      let malformed := malformed ++ state.unfinished
      if c = close then ⟨.closed, offset + 1, r, octals, malformed⟩
      else if lines && c = '$' && r.head? = some '\x7b' then
        ⟨.substitution, offset + 2, r.tail, octals, malformed⟩
      else if !lines && (c = '\n' || c = '\r') then ⟨.unclosed, offset, c :: r, octals, malformed⟩
      else
        readText close lines octals malformed (if c = '\\' then .escape offset else .plain)
          (offset + c.utf8Size) r

/-- Reads a string after its opening quote.  Its first malformed escape breaks it. -/
def readString (start : Nat) (quote : Char) (cs : List Char) : Taken :=
  let after := readText quote false [] [] .plain (start + 1) cs
  let raw := String.ofList (quote :: cs.take (cs.length - after.rest.length))
  match after.malformed, after.ending with
  | offset :: _, _ => ⟨.broken offset, after.offset, after.rest, after.octals⟩
  | [], .unclosed => ⟨.string raw, after.offset, after.rest, after.octals ++ [start]⟩
  | [], _ => ⟨.string raw, after.offset, after.rest, after.octals⟩

/-- Reads a piece of a template, up to its end or to a substitution. -/
def readTemplate (offset : Nat) (cs : List Char) : AfterText :=
  readText (Char.ofNat 0x60) true [] [] .plain offset cs

/-- The escape for which a piece of a template is refused where no function takes it: the last one
that is octal or malformed. -/
def AfterText.refused? (after : AfterText) : Option Nat := (after.octals ++ after.malformed).max?

/-- Reads the body of a regular expression up to the slash that ends it; nothing where the line
ends first. -/
def readPatternBody : Bool → Nat → List Char → Option (Nat × List Char)
  | _, _, [] => none
  | inClass, offset, '\\' :: c :: r =>
    if endsLine c then none else readPatternBody inClass (offset + 1 + c.utf8Size) r
  | inClass, offset, c :: r =>
    if endsLine c then none
    else if c = '/' && !inClass then some (offset + 1, r)
    else
      readPatternBody (if c = '[' then true else if c = ']' then false else inClass)
        (offset + c.utf8Size) r

/-- Reads a regular expression after its opening slash, which stood at `start`. -/
def readPattern (start offset : Nat) (cs : List Char) : Taken :=
  match readPatternBody false offset cs with
  | none => ⟨.broken start, offset, cs, []⟩
  | some (offset, rest) =>
    let flags := rest.takeWhile inName
    let fine := flags.all ("dgimsuvy".toList.contains ·) && flags.eraseDups.length = flags.length
    ⟨.number, offset + byteLength flags, rest.dropWhile inName, if fine then [] else [start]⟩

/-! ## All tokens -/

/-- The signs, longer ones before those that they start with. -/
def signs : List String :=
  [">>>=", "...", "===", "!==", "**=", "<<=", ">>=", ">>>", "&&=", "||=", "??=",
   "=>", "==", "!=", "<=", ">=", "&&", "||", "??", "?.", "++", "--", "+=", "-=", "*=", "/=", "%=",
   "&=", "|=", "^=", "<<", ">>", "**", "\x7b", "\x7d", "(", ")", "[", "]", ";", ",", "<", ">", "+", "-",
   "*", "/", "%", "&", "|", "^", "!", "~", "?", ":", "=", ".", "@", "#", "\x60"]

/-- The first sign that a text starts with.  A question mark and a point are two signs where a
digit follows. -/
def readSign (cs : List Char) : List String → Option (String × List Char)
  | [] => none
  | s :: more =>
    match stripPrefix? s.toList cs with
    | some rest =>
      let digitNext := match rest with
        | c :: _ => isDigit c
        | [] => false
      if s = "?." && digitNext then readSign cs more else some (s, rest)
    | none => readSign cs more

def takeToken (offset : Nat) (cs : List Char) : Taken :=
  match cs with
  | [] => ⟨.finish, offset, [], []⟩
  | c :: r =>
    if startsName c || c = '\\' then readWord .plain true offset cs
    else if isDigit c then readNumber offset cs
    else if c = '"' || c = '\'' then readString offset c r
    else
      let pointDigit := c = '.' && match r with
        | d :: _ => isDigit d
        | [] => false
      if pointDigit then
        let (rest, n, fine) := readDigits 10 false r
        readExponent offset (offset + 1 + n) rest fine
      else
        match readSign cs signs with
        | some (s, rest) => ⟨.sign s, offset + s.length, rest, []⟩
        | none => ⟨.broken offset, offset + c.utf8Size, r, []⟩

def readToken (afterBreak : Bool) (offset : Nat) (cs : List Char) :
    Token × List Char × List Nat :=
  let gap := skipGap .space afterBreak offset cs
  let t := takeToken gap.offset gap.rest
  (⟨t.lexeme, gap.offset, t.offset, gap.afterBreak⟩, t.rest, gap.problems ++ t.problems)

end SingleFile.Script
