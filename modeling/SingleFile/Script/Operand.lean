import SingleFile.Script.Expression

/-!
# Operands

The operands of operators: literals, names, functions and classes, with the members, calls and
templates that follow them.  What follows `new` takes no calls.
-/

namespace SingleFile.Script

def Expr.inChain (e : Expr) : Bool := e.form = .chain

/-- An expression after one of its members has been taken. -/
def Expr.reached (e : Expr) : Expr :=
  if e.inChain then .rigid e.start .chain e.value
  else ⟨e.start, .member, none, some e.start, e.value⟩

def Expr.called (e : Expr) : Expr :=
  .rigid e.start (if e.inChain then .chain else .call) e.value

namespace Grammar

open Reader

variable (g : Grammar)

/-- A reader with nothing to keep, as an expression that is a value and nothing else. -/
def rigidly (p : Reader Unit) : Reader Expr := do
  let s ← start
  p
  return .rigid s .other

def classExpression : Reader Unit := do
  if !(← isSign "\x7b") && !(← isWord "extends") then let _ ← bindingName
  g.classRest

/-- Whether a function after the word `async` follows. -/
def asyncFunctionNext : Reader Bool := do
  if ← isWord "async" then
    let next ← peek
    return Token.isWord next "function" && !next.afterBreak
  else return false

def primary : Reader Expr := do
  let t ← token
  let canBeArrow := (← get).arrowStart = some t.start
  match t.lexeme with
  | .number | .string _ => rigidly bump
  | .sign "[" => g.array
  | .sign "\x7b" => g.object
  | .sign "(" => g.parenthesized t.start canBeArrow false
  | .sign "\x60" => rigidly (g.template false)
  | .sign "/" | .sign "/=" => rigidly regularExpression
  | .sign "#" => rigidly do let _ ← privateName
  | .word "function" false => rigidly do
    bump
    g.functionExpression false
  | .word "class" false => rigidly do
    bump
    g.classExpression
  | .word w false =>
    if ["this", "null", "true", "false"].contains w then rigidly bump
    else if ← asyncFunctionNext then rigidly do
      bump
      bump
      g.functionExpression true
    else if w = "async" && canBeArrow then
      let next ← peek
      if Token.isSign next "(" && !next.afterBreak then
        bump
        g.parenthesized t.start true true
      else g.nameOrArrow canBeArrow
    else g.nameOrArrow canBeArrow
  | .word _ true => g.nameOrArrow canBeArrow
  | _ => unexpected

def member (e : Expr) : Reader Expr := do
  let _ ← if ← isSign "#" then privateName else anyName
  return e.reached

def indexed (e : Expr) : Reader Expr := do
  bump
  g.innerExpression
  expectSign "]"
  return e.reached

def following (calls : Bool) : Nat → Expr → Reader Expr
  | 0, _ => unexpected
  | fuel + 1, e => do
    match (← token).lexeme with
    | .sign "?." =>
      bump
      let chain := Expr.rigid e.start .chain e.value
      match (← token).lexeme with
      | .sign "[" => following calls fuel (← g.indexed chain)
      | .sign "(" =>
        g.arguments
        following calls fuel chain
      | _ => following calls fuel (← member chain)
    | .sign "[" => following calls fuel (← g.indexed e)
    | .sign "." =>
      bump
      following calls fuel (← member e)
    | .sign "(" =>
      if calls then
        g.arguments
        following calls fuel e.called
      else return e
    | .sign "\x60" =>
      if e.inChain then unexpected
      g.template true
      following calls fuel (.rigid e.start .other e.value)
    | _ => return e

/-- Reads what follows an operand, if anything does; an arrow function ends where its body ends. -/
def withFollowing (calls : Bool) (e : Expr) : Reader Expr :=
  if e.form = .arrow then pure e else g.following calls g.fuel e

/-- Reads what follows `super`. -/
def ofSuper (calls : Bool) : Reader Expr := do
  let s ← start
  bump
  unless (← setting).allowSuper do
    if (← isSign ".") || (← isSign "[") || (← isSign "(") then note s
  match (← token).lexeme with
  | .sign "." | .sign "[" => g.withFollowing calls (.rigid s .other)
  | .sign "(" => if calls then g.withFollowing calls (.rigid s .other) else unexpected
  | _ => unexpected

/-- Reads what follows `import` in an expression. -/
def ofImport (calls : Bool) : Reader Expr := do
  let s ← start
  bump
  if ← eatSign "." then
    let name ← anyName
    if name.text = "meta" then return ← g.withFollowing calls (.rigid s .other)
    if name.text ≠ "defer" && name.text ≠ "source" then unexpected
  if ← isSign "(" then g.withFollowing calls (.rigid s .other) else unexpected

/-- Reads an operand in which `new` applies; `calls` allows calls after it. -/
def operandWith (calls : Bool) : Reader Expr := do
  let s ← start
  if ← isWord "new" then
    bump
    if ← eatSign "." then
      expectWord "target"
      unless (← setting).allowNewTarget do note s
      return ← g.withFollowing calls (.rigid s .other)
    let callee ← g.constructed
    if callee.form = .arrow then return callee
    if callee.inChain then throw callee.start
    useValue callee
    if ← isSign "(" then
      g.arguments
      g.withFollowing calls (.rigid s .other)
    else return .rigid s .bareNew
  else if ← isWord "super" then g.ofSuper calls
  else if ← isWord "import" then g.ofImport calls
  else g.withFollowing calls (← g.primary)

def operand : Reader Expr := g.operandWith true

end Grammar

end SingleFile.Script
