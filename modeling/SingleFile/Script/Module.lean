import SingleFile.Script.Statement

/-!
# Reading a module

The declarations by which a module imports and exports stand between its statements, at the top
level only.  `Script.parse` reads a whole module, or gives the offset at which it is at fault.

The grammar is the one that swc reads by default: modules with `await` at the top level, phase words
of imports and a first line that names an interpreter, without JSX, types and decorators.  What is
taken, where reading stops and the spans of items are as there; statements leave no tree, only their
span and the names they declare.  Attributes of imports are taken, although the switch for them is
documented as off.  Regular expressions are read for their end and flags only.  What a later pass
would refuse is no fault here: two declarations of one name, two default exports, or an export of a
name that is not declared.
-/

namespace SingleFile.Script

namespace Grammar

open Reader

variable (g : Grammar)

/-- The words that never stand for a value, also where any name is read. -/
def clauseWords : List String :=
  reservedWords.filter fun w =>
    !(["implements", "interface", "private", "protected", "public", "await", "yield"].contains w)

/-- The span of a part that ends before the current token. -/
def spanFrom (s : Nat) : Reader Span := return ⟨s, ← lastStop⟩

def sourceString : Reader Span := do
  let t ← token
  match t.lexeme with
  | .string _ =>
    bump
    return ⟨t.start, t.stop⟩
  | _ => unexpected

/-- Reads the attributes of an import or export, if they follow on the same line. -/
def importAttributes : Reader Unit := do
  if (← token).afterBreak then return
  if (← eatWord "with") || (← eatWord "assert") then useValue (← g.object)

/-- Reads `from`, the string after it, its attributes and the semicolon. -/
def fromClause : Reader Span := do
  expectWord "from"
  let source ← sourceString
  g.importAttributes
  expectSemicolon
  return source

structure ClauseName where
  span : Span
  isString : Bool
  word : String

/-- Reads a name in an import or export clause: any word, or a string. -/
def clauseName : Reader ClauseName := do
  let t ← token
  match t.lexeme with
  | .string _ =>
    bump
    return ⟨⟨t.start, t.stop⟩, true, ""⟩
  | _ =>
    let n ← anyName
    return ⟨n.span, false, n.text⟩

def importName : Reader ImportBinding := do
  let name ← clauseName
  if ← eatWord "as" then return .named (some name.span) (← bindingName)
  if name.isString || isReserved name.word then throw name.span.start
  return .named none ⟨name.word, name.span⟩

def importClause : Reader (List ImportBinding) := do
  if ← eatSign "*" then
    expectWord "as"
    return [.whole (← bindingName)]
  else
    expectSign "\x7b"
    let names ← commaList "\x7d" importName g.fuel
    expectSign "\x7d"
    return names

/-- Whether a word that says when an import is evaluated comes before what it binds. -/
def phaseWordNext : Reader Bool := do
  if (← isWord "source") || (← isWord "defer") then
    let next ← peek
    match next.lexeme with
    | .sign s => return s = "*" || s = "\x7b"
    | .word "from" _ =>
      let s ← get
      let (_, rest, _) := readToken false s.token.stop s.rest
      return Token.isWord (readToken false next.stop rest).1 "from"
    | .word w _ => return !isReserved w
    | _ => return false
  else return false

def importItem : Reader Item := do
  let s ← start
  bump
  match (← token).lexeme with
  | .string _ =>
    let source ← sourceString
    g.importAttributes
    expectSemicolon
    return .importing (← spanFrom s) [] source
  | _ =>
    if ← phaseWordNext then bump
    let isName := (wordOf (← token)).isSome
    let first ← if isName then pure [ImportBinding.default (← bindingName)] else pure []
    let bindings ← if isName && (← isWord "from") then pure []
      else
        if isName then expectSign ","
        g.importClause
    let source ← g.fromClause
    return .importing (← spanFrom s) (first ++ bindings) source

/-- Reads one name of an export clause, with its own name in the module. -/
def exportName : Reader (ClauseName × ExportBinding) := do
  let inner ← clauseName
  let outer ← if ← eatWord "as" then
      pure (some (← clauseName).span)
    else pure none
  return (inner, .named inner.span outer)

def exportDefaultItem (s : Nat) : Reader Item := do
  let inner ← start
  if (← isWord "class") then
    let name ← g.classDeclaration false
    return .exportDefault (← spanFrom s) inner name
  else if (← isWord "function") then
    let name ← g.functionDeclaration false false
    return .exportDefault (← spanFrom s) inner name
  else if ← asyncFunctionNext then
    bump
    let name ← g.functionDeclaration false true
    return .exportDefault (← spanFrom s) inner name
  else
    g.assignedValue
    expectSemicolon
    return .exportValue (← spanFrom s) inner

def exportStarItem (s : Nat) : Reader Item := do
  bump
  if ← eatWord "as" then
    let name ← clauseName
    let source ← g.fromClause
    return .exportNamed (← spanFrom s) [.whole name.span] (some source)
  else
    let source ← g.fromClause
    return .exportAll (← spanFrom s) source

/-- Reads an export clause.  Names of this module may be neither words of the language nor strings. -/
def exportClauseItem (s : Nat) : Reader Item := do
  expectSign "\x7b"
  let names ← commaList "\x7d" exportName g.fuel
  expectSign "\x7d"
  let bindings := names.map (·.2)
  if ← isWord "from" then
    let source ← g.fromClause
    return .exportNamed (← spanFrom s) bindings (some source)
  else
    names.forM fun (inner, _) => do
      if inner.isString || clauseWords.contains inner.word then note inner.span.start
    let _ ← eatSemicolon
    return .exportNamed (← spanFrom s) bindings none

def exportItem : Reader Item := do
  let s ← start
  bump
  let inner ← start
  let declared (p : Reader (List Name)) : Reader Item := do
    let names ← p
    return .exportDeclaration (← spanFrom s) inner names
  match (← token).lexeme with
  | .word "default" false =>
    bump
    g.exportDefaultItem s
  | .sign "*" => g.exportStarItem s
  | .word "class" false => declared ((·.toList) <$> g.classDeclaration true)
  | .word "function" false => declared ((·.toList) <$> g.functionDeclaration true false)
  | .word "var" false | .word "const" false => declared g.variableStatement
  | .word "let" false => if ← letDeclares then declared g.variableStatement else unexpected
  | .word "async" false =>
    if ← asyncFunctionNext then
      bump
      declared ((·.toList) <$> g.functionDeclaration true true)
    else unexpected
  | _ => g.exportClauseItem s

def moduleItem : Reader Item := do
  let s ← start
  let statement : Reader Item := do
    let names ← g.statement true
    return .statement (← spanFrom s) names
  match (← token).lexeme with
  | .word "import" false =>
    let next ← peek
    if Token.isSign next "(" || Token.isSign next "." then statement else g.importItem
  | .word "export" false => g.exportItem
  | _ => statement

def moduleItems : Reader (List Item) :=
  many (do
    if (← token).lexeme = .finish then return none
    return some (← g.moduleItem)) g.fuel

end Grammar

def grammar (fuel : Nat) : Nat → Grammar
  | 0 =>
    { fuel
      assignment := Reader.unexpected
      unary := Reader.unexpected
      base := Reader.unexpected
      constructed := Reader.unexpected
      pattern := Reader.unexpected
      statement := fun _ => Reader.unexpected }
  | depth + 1 =>
    { fuel
      assignment := fun s => (grammar fuel depth).assignmentExpression s
      unary := fun s => (grammar fuel depth).unaryExpression s
      base := fun s => (grammar fuel depth).operand s
      constructed := fun s => (grammar fuel depth).operandWith false s
      pattern := fun s => (grammar fuel depth).bindingPattern s
      statement := fun declarations s =>
        (grammar fuel depth).statementOrDeclaration declarations s }

def skipInterpreter : List Char → Nat × List Char
  | '#' :: '!' :: r =>
    let line := r.takeWhile (!endsLine ·)
    (2 + byteLength line, r.drop line.length)
  | cs => (0, cs)

/-- Reads a module, or gives the offset of its fault: of the place where reading stops, or else of
the first problem on the way.  Nesting uses up a character at every third level at least. -/
def parse (source : String) : Except Nat (List Item) :=
  let cs := source.toList
  let (offset, rest) := skipInterpreter cs
  let (token, rest, problems) := readToken true offset rest
  let g := grammar (cs.length + 2) (3 * cs.length + 6)
  match g.moduleItems.run { token, rest, problems } with
  | .error offset _ => .error offset
  | .ok items reading =>
    match reading.problems with
    | offset :: _ => .error offset
    | [] => .ok items

end SingleFile.Script
