import SingleFile.Script.Operand

/-!
# Operators

Operators bind by precedence.  Those of one precedence group to the left, powers to the right, and
assignments, conditionals and arrow functions to the right below all others.
-/

namespace SingleFile.Script

def precedence : String → Option Nat
  | "??" | "||" | "&&" => some 1
  | "|" => some 3
  | "^" => some 4
  | "&" => some 5
  | "==" | "!=" | "===" | "!==" => some 6
  | "<" | ">" | "<=" | ">=" => some 7
  | "<<" | ">>" | ">>>" => some 8
  | "+" | "-" => some 9
  | "*" | "/" | "%" => some 10
  | "**" => some 11
  | _ => none

/-- The precedence of a token as an operator between two operands. -/
def Token.precedence? (t : Token) (allowIn : Bool) : Option Nat :=
  match t.lexeme with
  | .sign s => precedence s
  | .word "in" false => if allowIn then some 7 else none
  | .word "instanceof" false => some 7
  | _ => none

def operationAssignments : List String :=
  ["+=", "-=", "*=", "/=", "%=", "**=", "<<=", ">>=", ">>>=", "&=", "|=", "^=", "&&=", "||=", "??="]

def wordsInside : List String :=
  ["in", "instanceof", "break", "case", "catch", "const", "continue", "debugger", "default", "do",
   "else", "enum", "export", "extends", "finally", "for", "if", "return", "switch", "throw", "try",
   "var", "while", "with"]

def signsBefore : List String :=
  ["(", "[", "\x7b", "!", "~", "+", "-", "++", "--", "\x60", "/", "/=", "#"]

def Token.startsExpression (t : Token) : Bool :=
  match t.lexeme with
  | .word w _ => !wordsInside.contains w
  | .number | .string _ => true
  | .sign s => signsBefore.contains s
  | _ => false

def Form.isOperation : Form → Bool
  | .arrow | .unary | .conjunction | .disjunction | .coalescing | .compound => true
  | _ => false

/-- Whether a form is a logical operation that may not be mixed with coalescing. -/
def Form.isLogical (form : Form) : Bool := form = .conjunction || form = .disjunction

def formOf (t : Token) : Form :=
  if t.lexeme = .sign "&&" then .conjunction
  else if t.lexeme = .sign "||" then .disjunction
  else if t.lexeme = .sign "??" then .coalescing
  else .compound

namespace Grammar

open Reader

variable (g : Grammar)

def simpleTarget (e : Expr) : Reader Unit :=
  if e.form = .array || e.form = .object then note e.start
  else match e.target with
    | some _ => note e.start
    | none => pure ()

/-- Reads an expression after `await`. -/
def awaited : Reader Expr := do
  let s ← start
  let around ← setting
  let within := around.inFunction
  let async := (within || around.inParameters) && around.inAsync
  bump
  if ← isSign "*" then unexpected
  if !async && ((← isSign ")") || (← isSign "]")) then
    note s
    return ⟨s, .name "await", none, none, none⟩
  if (within && !async) || (!within && around.inParameters) then note s
  let e ← g.unary
  return .rigid s .waiting e.value

/-- Reads an operand with the operators that apply to it alone.  An operator before a missing
operand is a problem, but reading goes on. -/
def unaryExpression : Reader Expr := do
  let t ← token
  let s := t.start
  match t.lexeme with
  | .sign "++" | .sign "--" =>
    bump
    let e ← g.unary
    simpleTarget e
    return .rigid s .compound e.value
  | .sign "+" | .sign "-" | .sign "~" | .sign "!"
  | .word "typeof" false | .word "void" false | .word "delete" false =>
    bump
    let e ← tryCatch g.unary fun offset => do
      note offset
      return .rigid s .other
    if t.lexeme = .word "delete" false then
      match e.form with
      | .name _ => note e.start
      | _ => pure ()
    return .rigid s .unary e.value
  | .word "await" false => g.awaited
  | _ =>
    let e ← g.operand
    if e.form = .arrow || (← token).afterBreak then return e
    if (← isSign "++") || (← isSign "--") then
      simpleTarget e
      bump
      return .rigid s .compound e.value
    return e

/-- Reads an operand of an operator.  A missing operand before another operator is a problem, but
reading goes on. -/
def operatorOperand : Reader Expr := do
  let s ← start
  tryCatch g.unary fun offset => do
    let st ← get
    match st.token.precedence? st.setting.allowIn with
    | some _ =>
      note st.lastStart
      return .rigid s .other
    | none => throw offset

/-- Reads the operators of more than a precedence, with their right operands. -/
def binaryTail : Nat → Nat → Expr → Reader Expr
  | 0, _, _ => unexpected
  | fuel + 1, least, left => do
    let t ← token
    match t.precedence? (← setting).allowIn with
    | none => return left
    | some p =>
      if p ≤ least then return left
      bump
      let power := t.lexeme = .sign "**"
      if power && (left.form = .unary || left.form = .waiting) then unexpected
      let right ← binaryTail fuel (if power then p - 1 else p) (← g.operatorOperand)
      let form := formOf t
      if form = .coalescing then
        if Form.isLogical left.form then note left.start
        if Form.isLogical right.form then note right.start
      if Form.isLogical form && left.form = .coalescing then note left.start
      binaryTail fuel least (.rigid left.start form (left.value <|> right.value))

def binary : Reader Expr := do
  let left ← g.operatorOperand
  if left.form = .arrow then return left
  g.binaryTail g.fuel 0 left

def conditional : Reader Expr := do
  let e ← g.binary
  if e.form = .arrow then return e
  if ← eatSign "?" then
    let yes ← within ({ · with allowIn := true }) g.assignment
    expectSign ":"
    let no ← g.assignment
    return .rigid e.start .compound (e.value <|> yes.value <|> no.value)
  return e

/-- Reads an expression after `yield`. -/
def yielded : Reader Expr := do
  let s ← start
  bump
  let around ← setting
  if around.inParameters && !around.inFunction then throw s
  let t ← token
  if t.afterBreak || !(t.startsExpression || t.lexeme = .sign "*") then return .rigid s .other
  let _ ← eatSign "*"
  let e ← g.assignment
  return .rigid s .other e.value

def assignmentTo (e : Expr) : Reader Expr := do
  match (← token).lexeme with
  | .sign "=" =>
    match e.target with
    | none => pure ()
    | some offset =>
      match e.form with
      | .name _ | .array | .object | .paren => note offset
      | _ => throw offset
    bump
    let right ← g.assignment
    return ⟨e.start, .assignment, e.target, e.parameter, right.value⟩
  | .sign s =>
    if operationAssignments.contains s then
      simpleTarget e
      match e.form with
      | .name _ | .member | .paren | .chain => pure ()
      | _ => throw e.start
      bump
      let right ← g.assignment
      return .rigid e.start .other (e.value <|> right.value)
    else return e
  | _ => return e

def assignmentExpression : Reader Expr := do
  let s ← start
  if (← setting).inGenerator && (← isWord "yield") then g.yielded
  else
    modify fun st => { st with arrowStart := some s }
    let e ← g.conditional
    if e.form.isOperation then return e
    g.assignmentTo e

end Grammar

end SingleFile.Script
