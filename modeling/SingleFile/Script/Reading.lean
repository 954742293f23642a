import SingleFile.Script.Syntax
import SingleFile.Script.Token

/-!
# Reading a script token by token

The state in which the grammar reads: the current token, what is left after it, the problems found
so far, and what the surrounding code allows.  Reading stops at an offset when the grammar cannot go
on; problems are offsets too, and the reading goes on after them.
-/

namespace SingleFile.Script

/-- What the surrounding code allows. -/
structure Setting where
  inFunction : Bool := false
  inParameters : Bool := false
  inField : Bool := false
  inStaticBlock : Bool := false
  inAsync : Bool := true
  inGenerator : Bool := false
  allowIn : Bool := true
  allowBreak : Bool := false
  allowContinue : Bool := false
  allowSuper : Bool := false
  allowNewTarget : Bool := false
  labels : List String := []

/-- The state of reading a script.  `lastStart` and `lastStop` are the span of the token before the
current one; `arrowStart` is where the last expression without commas started, the only place where
parameters of an arrow function may stand. -/
structure Reading where
  token : Token
  rest : List Char
  lastStart : Nat := 0
  lastStop : Nat := 0
  arrowStart : Option Nat := none
  problems : List Nat := []
  setting : Setting := {}

abbrev Reader := EStateM Nat Reading

namespace Reader

def token : Reader Token := return (← get).token

def start : Reader Nat := return (← token).start

def lastStop : Reader Nat := return (← get).lastStop

def setting : Reader Setting := return (← get).setting

def note (offset : Nat) : Reader Unit :=
  modify fun s => { s with problems := s.problems ++ [offset] }

def bump : Reader Unit :=
  modify fun s =>
    let (token, rest, problems) := readToken false s.token.stop s.rest
    { s with
      token, rest
      lastStart := s.token.start, lastStop := s.token.stop
      problems := s.problems ++ problems }

def peek : Reader Token := do
  let s ← get
  return (readToken false s.token.stop s.rest).1

/-- The offset at which a token is out of place. -/
def offence (t : Token) : Nat :=
  match t.lexeme with
  | .broken offset => offset
  | _ => t.start

def unexpected {α : Type} : Reader α := do throw (offence (← token))

/-- Reads with other permissions, and goes back to the old ones afterwards. -/
def within {α : Type} (change : Setting → Setting) (p : Reader α) : Reader α := do
  let old := (← get).setting
  modify fun s => { s with setting := change s.setting }
  try
    let a ← p
    modify fun s => { s with setting := old }
    return a
  catch e =>
    modify fun s => { s with setting := old }
    throw e

def isSign (s : String) : Reader Bool := return decide ((← token).lexeme = .sign s)

def isWord (w : String) : Reader Bool := return decide ((← token).lexeme = .word w false)

def Token.isSign (t : Token) (s : String) : Bool := decide (t.lexeme = .sign s)

def Token.isWord (t : Token) (w : String) : Bool := decide (t.lexeme = .word w false)

def eatSign (s : String) : Reader Bool := do
  if ← isSign s then
    bump
    return true
  else return false

def eatWord (w : String) : Reader Bool := do
  if ← isWord w then
    bump
    return true
  else return false

def expectSign (s : String) : Reader Unit := do unless ← eatSign s do unexpected

def expectWord (w : String) : Reader Unit := do unless ← eatWord w do unexpected

/-- Moves over a semicolon, or finds that none is needed: at a closing brace, at the end, and after
a line break. -/
def eatSemicolon : Reader Bool := do
  let t ← token
  match t.lexeme with
  | .sign ";" =>
    bump
    return true
  | .sign "\x7d" => return true
  | .finish => return true
  | _ => return t.afterBreak

def expectSemicolon : Reader Unit := do unless ← eatSemicolon do unexpected

def reservedWords : List String :=
  ["null", "true", "false", "break", "case", "catch", "class", "const", "continue", "debugger",
   "default", "delete", "do", "else", "enum", "export", "extends", "finally", "for", "function",
   "if", "import", "in", "instanceof", "new", "return", "super", "switch", "this", "throw", "try",
   "typeof", "var", "void", "while", "with", "implements", "interface", "package", "private",
   "protected", "public", "await", "yield"]

/-- Words that strict code may not use as names either, without being reserved. -/
def strictWords : List String := ["let", "static"]

def isReserved (w : String) : Bool := reservedWords.contains w

def wordOf (t : Token) : Option String :=
  match t.lexeme with
  | .word w _ => some w
  | _ => none

def anyName : Reader Name := do
  let t ← token
  match t.lexeme with
  | .word w _ =>
    bump
    return ⟨w, ⟨t.start, t.stop⟩⟩
  | _ => unexpected

def bindingName : Reader Name := do
  let t ← token
  match t.lexeme with
  | .word w _ =>
    if isReserved w then unexpected
    else
      bump
      if strictWords.contains w || w = "eval" || w = "arguments" then note t.start
      return ⟨w, ⟨t.start, t.stop⟩⟩
  | _ => unexpected

def commaList {α : Type} (close : String) (part : Reader α) : Nat → Reader (List α)
  | 0 => unexpected
  | fuel + 1 => do
    if ← isSign close then return []
    else
      let a ← part
      if ← isSign close then return [a]
      else
        expectSign ","
        return a :: (← commaList close part fuel)

def many {α : Type} (part : Reader (Option α)) : Nat → Reader (List α)
  | 0 => unexpected
  | fuel + 1 => do
    match ← part with
    | none => return []
    | some a => return a :: (← many part fuel)

end Reader

end SingleFile.Script
