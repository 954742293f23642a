import SingleFile.Script.Reading

/-!
# Expressions

Of an expression only what later decisions need is kept: its start, its form, and where it fails
as a target of an assignment, as a parameter, and as a value.  An object or array literal may turn
out to be a pattern once the sign after it is seen, so all three are known in advance.

The grammar is recursive through `Grammar`, which holds the readers for the parts of a construct.
-/

namespace SingleFile.Script

/-- The forms of expressions that the grammar tells apart. -/
inductive Form where
  | name (text : String)
  | member
  | call
  | bareNew
  | chain
  | array
  | object
  | paren
  | assignment
  | arrow
  | unary
  | waiting
  | conjunction
  | disjunction
  | coalescing
  | compound
  | other
deriving DecidableEq, Repr

/-- An expression.  `target`, `parameter` and `value` are the offsets at which it fails as the
target of an assignment, as a parameter of a function, and as a value. -/
structure Expr where
  start : Nat
  form : Form
  target : Option Nat
  parameter : Option Nat
  value : Option Nat
deriving Repr

/-- An expression that is a value and nothing else. -/
def Expr.rigid (start : Nat) (form : Form) (value : Option Nat := none) : Expr :=
  ⟨start, form, some start, some start, value⟩

def Expr.isName (e : Expr) : Bool :=
  match e.form with
  | .name _ => true
  | _ => false

structure Grammar where
  /-- More than the number of tokens, for loops over parts. -/
  fuel : Nat
  assignment : Reader Expr
  unary : Reader Expr
  /-- What a class extends. -/
  base : Reader Expr
  /-- What follows `new`. -/
  constructed : Reader Expr
  /-- A pattern that is bound; gives the names in it. -/
  pattern : Reader (List Name)
  /-- A statement; gives the names it declares.  The flag allows declarations. -/
  statement : Bool → Reader (List Name)

namespace Grammar

open Reader

variable (g : Grammar)

/-- Notes where an expression fails as a value. -/
def useValue (e : Expr) : Reader Unit :=
  match e.value with
  | some offset => note offset
  | none => pure ()

def assignedValue : Reader Unit := do useValue (← within ({ · with allowIn := true }) g.assignment)

def sequenceTail : Nat → Expr → Reader Expr
  | 0, _ => unexpected
  | fuel + 1, e => do
    if ← eatSign "," then
      let next ← g.assignment
      sequenceTail fuel (.rigid e.start .other (e.value <|> next.value))
    else return e

def expression : Reader Expr := do g.sequenceTail g.fuel (← g.assignment)

/-- Reads an expression in brackets or parentheses, where `in` is an operator again. -/
def innerExpression : Reader Unit := do
  useValue (← within ({ · with allowIn := true }) g.expression)

/-! ## Functions and classes -/

def blockItems : Reader Unit := do
  let _ ← many (do
    if ← isSign "\x7d" then return none
    if decide ((← token).lexeme = .finish) then unexpected
    let _ ← g.statement true
    return some ()) g.fuel
  expectSign "\x7d"

def functionSetting (async generator : Bool) (old : Setting) : Setting :=
  { old with
    inFunction := true, inAsync := async, inGenerator := generator, allowIn := true
    inStaticBlock := false, allowBreak := false, allowContinue := false, labels := [] }

/-- What a function with parameters and names of its own changes in its setting. -/
def ownSetting (async generator method : Bool) (old : Setting) : Setting :=
  { functionSetting async generator old with
    inField := false, allowSuper := method, allowNewTarget := true }

/-- What the value of a field or a static block changes in its setting. -/
def fieldSetting (old : Setting) : Setting :=
  { ownSetting false false true old with inField := true }

/-- The signs before which a string at the end of a line goes on. -/
def signsAfterString : List String :=
  ["(", "[", ".", "?.", "?", ",", "=", "=>", "\x60", "+", "-", "*", "/", "%", "**", "<", ">", "<=",
   ">=", "==", "!=", "===", "!==", "<<", ">>", ">>>", "&", "|", "^", "&&", "||", "??"]

def directive? : Reader (Option String) := do
  match (← token).lexeme with
  | .string raw =>
    let next ← peek
    let alone := match next.lexeme with
      | .sign s => s = ";" || s = "\x7d" || (next.afterBreak && !signsAfterString.contains s)
      | .word w _ => next.afterBreak && w ≠ "in" && w ≠ "instanceof"
      | .finish => true
      | _ => next.afterBreak
    return if alone then some raw else none
  | _ => return none

/-- Reads the body of a function from its opening brace on.  Among the strings that it starts with
none may ask for strict mode unless all parameters are names. -/
def functionBody (simple : Bool) : Reader Unit := do
  expectSign "\x7b"
  let strict ← many (do
    match ← directive? with
    | none => return none
    | some raw =>
      let s ← start
      let _ ← g.statement true
      return some (if raw = "'use strict'" || raw = "\"use strict\"" then some s else none)) g.fuel
  g.blockItems
  unless simple do
    match strict.findSome? id with
    | some offset => note offset
    | none => pure ()

def boundElement : Reader (List Name) := do
  let names ← g.pattern
  if ← eatSign "=" then g.assignedValue
  return names

/-- What is kept of the parameters of a function: their number, whether all are names, and where
the first one starts if it takes the rest. -/
structure Parameters where
  count : Nat
  simple : Bool
  firstRest : Option Nat

def parameters : Reader Parameters := do
  let parts ← commaList ")" (do
    let s ← start
    if ← eatSign "..." then
      let _ ← g.pattern
      if ← isSign "," then note (← start)
      return (false, some s)
    else
      let named := (wordOf (← token)).isSome
      let stop := (← token).stop
      let _ ← g.boundElement
      return (named && (← lastStop) = stop, none)) g.fuel
  expectSign ")"
  return ⟨parts.length, parts.all (·.1), parts.head?.bind (·.2)⟩

/-- Reads parameters, about which `check` may note problems, and the body of a function. -/
def functionWith (async generator method : Bool) (check : Parameters → Reader Unit) :
    Reader Unit :=
  within (ownSetting async generator method) do
    expectSign "("
    let parameters ← within ({ · with inParameters := true, inFunction := false }) g.parameters
    check parameters
    g.functionBody parameters.simple

def functionRest (async generator method : Bool) : Reader Unit :=
  g.functionWith async generator method fun _ => pure ()

/-- Reads parameters and the body of a property that computes its value or takes one: no parameter
or one.  Another number is a problem at `offset`. -/
def accessorRest (takes : Bool) (offset : Nat) : Reader Unit :=
  g.functionWith false false true fun parameters => do
    if parameters.count ≠ (if takes then 1 else 0) then note offset
    if takes then
      match parameters.firstRest with
      | some s => note s
      | none => pure ()

/-- Reads the body of an arrow function; `simple` says that all its parameters are names. -/
def arrowBody (async simple : Bool) : Reader Unit := do
  if ← isSign "\x7b" then within (functionSetting async false) (g.functionBody simple)
  else
    let allowIn := (← setting).allowIn
    within (fun s => { functionSetting async false s with allowIn }) do
      useValue (← g.assignment)

def propertyName : Reader (Option Name) := do
  let t ← token
  match t.lexeme with
  | .word w _ =>
    bump
    return some ⟨w, ⟨t.start, t.stop⟩⟩
  | .string _ | .number =>
    bump
    return none
  | .sign "[" =>
    bump
    g.innerExpression
    expectSign "]"
    return none
  | _ => unexpected

def privateName : Reader Name := do
  let sign ← token
  expectSign "#"
  let t ← token
  if t.start = sign.stop then anyName else throw sign.start

/-- Whether the token after the current one shows that the current word is a name of its own and
no modifier of what follows. -/
def standsAlone (alone : List String) : Reader Bool := do
  let t ← peek
  match t.lexeme with
  | .sign s => return alone.contains s
  | .finish => return true
  | _ => return false

/-- The name of a class member: where it starts, and whether it is that of the constructor. -/
structure MemberName where
  start : Nat
  ofConstructor : Bool

/-- Whether a token, as the name of a class member, is that of the constructor. -/
def namesConstructor (t : Token) : Bool :=
  match t.lexeme with
  | .word w _ => w = "constructor"
  | .string raw => raw = "'constructor'" || raw = "\"constructor\""
  | _ => false

def memberName : Reader MemberName := do
  let t ← token
  if ← isSign "#" then
    let name ← privateName
    if name.text = "constructor" then note t.start
    return ⟨t.start, false⟩
  else
    let _ ← g.propertyName
    return ⟨t.start, namesConstructor t⟩

/-- Reads what follows the name of a class member: parameters and a body, or a value.  Gives the
start of the member where it is the constructor, of which no field may have the name. -/
def memberRest (isStatic : Bool) (name : MemberName) : Reader (Option Nat) := do
  if ← isSign "(" then
    g.functionRest false false true
    return if name.ofConstructor && !isStatic then some name.start else none
  if ← eatSign "=" then
    if name.ofConstructor then throw name.start
    within fieldSetting do useValue (← g.assignment)
    unless ← eatSemicolon do note (offence (← token))
  else
    expectSemicolon
    if name.ofConstructor then throw name.start
  return none

/-- The signs after a word in a class that make it the name of the member. -/
def memberAlone : List String := ["(", "=", ";", "\x7d"]

/-- Reads a class member after `static`, if that stands there.  The constructor is neither a
generator nor asynchronous nor computed as a property. -/
def memberAfterStatic (isStatic : Bool) : Reader (Option Nat) := do
  let s ← start
  if ← eatSign "*" then
    let name ← g.memberName
    if name.ofConstructor && !isStatic then note s
    g.functionRest false true true
    return none
  else if ← isWord "async" then
    let alone ← standsAlone memberAlone
    if alone || (← peek).afterBreak then g.memberRest isStatic (← g.memberName)
    else
      bump
      let generator ← eatSign "*"
      let name ← g.memberName
      if name.ofConstructor && !isStatic then throw name.start
      g.functionRest true generator true
      return none
  else if (← isWord "get") || (← isWord "set") then
    let takes ← isWord "set"
    let next ← peek
    let alone := (← standsAlone memberAlone) ||
      (next.afterBreak && decide (next.lexeme = .sign "*"))
    if alone then g.memberRest isStatic (← g.memberName)
    else
      bump
      let name ← g.memberName
      if name.ofConstructor && !isStatic then note s
      g.accessorRest takes s
      return none
  else g.memberRest isStatic (← g.memberName)

def classMember : Reader (Option Nat) := do
  if ← isWord "static" then
    if ← standsAlone memberAlone then g.memberRest false (← g.memberName)
    else
      bump
      if ← eatSign "\x7b" then
        within ({ fieldSetting · with inStaticBlock := true }) g.blockItems
        return none
      else g.memberAfterStatic true
  else g.memberAfterStatic false

def classRest : Reader Unit := do
  if ← eatWord "extends" then useValue (← g.base)
  expectSign "\x7b"
  let constructors ← many (do
    if ← isSign "\x7d" then return none
    if ← eatSign ";" then return some none
    return some (← g.classMember)) g.fuel
  (constructors.filterMap id).tail.forM note
  expectSign "\x7d"

/-! ## Literals -/

/-- Reads the pieces of a template after its first sign, which stood at `start`. -/
def templatePieces (start : Nat) (tagged : Bool) : Nat → Reader Unit
  | 0 => unexpected
  | fuel + 1 => do
    let s ← get
    let after := readTemplate s.token.stop s.rest
    let resume : Reader Unit := modify fun s =>
      let (token, rest, problems) := readToken false after.offset after.rest
      { s with token, rest, lastStart := start, lastStop := after.offset
               problems := s.problems ++ problems }
    if after.ending = .unclosed then throw start
    if let some offset := after.refused? then
      unless tagged do throw offset
    resume
    if after.ending = .substitution then
      g.innerExpression
      if ← isSign "\x7d" then templatePieces start tagged fuel else unexpected

def template (tagged : Bool) : Reader Unit := do g.templatePieces (← start) tagged g.fuel

def regularExpression : Reader Unit := do
  let s ← get
  let start := s.token.start
  let rest := if Token.isSign s.token "/=" then '=' :: s.rest else s.rest
  let t := readPattern start (start + 1) rest
  match t.lexeme with
  | .broken offset =>
    modify fun s => { s with token := { s.token with lexeme := t.lexeme } }
    throw offset
  | _ =>
    modify fun s =>
      let (token, rest, problems) := readToken false t.offset t.rest
      { s with token, rest, lastStart := start, lastStop := t.offset
               problems := s.problems ++ t.problems ++ problems }

/-- A part of an array or object literal or of a list of arguments, and whether it is spread. -/
structure Part where
  expr : Expr
  spread : Bool := false

/-- The part that a spread expression is; a default value may not stand in it, and in an object it
is a parameter only as a name. -/
def Part.ofSpread (start : Nat) (e : Expr) (inObject : Bool) : Part :=
  let bad := if e.form = .assignment then some start else none
  { expr := { e with
      start
      target := bad <|> e.target
      parameter := if inObject && !e.isName then some start else bad <|> e.parameter }
    spread := true }

/-- A literal with the given parts; `comma` is the offset of a comma at its end.  As a pattern only
its last part may be a spread, and no comma may follow it. -/
def literal (start : Nat) (form : Form) (parts : List (Option Part)) (comma : Option Nat) : Expr :=
  let exprs := parts.filterMap fun p => p.map (·.expr)
  let misplaced : Option Nat :=
    ((parts.dropLast.filterMap id).find? (·.spread)).map (·.expr.start) <|>
    (match parts.getLast? with
      | some (some p) => if p.spread then comma else none
      | _ => none)
  { start, form
    target := exprs.findSome? (·.target) <|> misplaced
    parameter := exprs.findSome? (·.parameter) <|> misplaced
    value := exprs.findSome? (·.value) }

def elements : Nat → Reader (List (Option Part) × Option Nat)
  | 0 => unexpected
  | fuel + 1 => do
    if ← eatSign "]" then return ([], none)
    if ← eatSign "," then
      let (parts, comma) ← elements fuel
      return (none :: parts, comma)
    let s ← start
    let part ← if ← eatSign "..." then
        pure (Part.ofSpread s (← g.assignment) false)
      else pure ⟨← g.assignment, false⟩
    if ← eatSign "]" then return ([some part], none)
    let comma ← start
    expectSign ","
    if ← eatSign "]" then return ([some part], some comma)
    let (parts, last) ← elements fuel
    return (some part :: parts, last)

def array : Reader Expr := do
  let s ← start
  expectSign "["
  let (parts, comma) ← within ({ · with allowIn := true }) (g.elements g.fuel)
  return literal s .array parts comma

/-- The signs after a word in an object that make it the name of the property. -/
def propertyAlone : List String := ["(", ":", ",", "=", "\x7d"]

/-- A property that no pattern can hold. -/
def methodPart (start : Nat) : Part := ⟨.rigid start .other, false⟩

def property : Reader Part := do
  let s ← start
  if ← eatSign "..." then return .ofSpread s (← g.assignment) true
  if ← eatSign "*" then
    let _ ← g.propertyName
    g.functionRest false true true
    return methodPart s
  if (← isWord "async") && !(← standsAlone propertyAlone) && !(← peek).afterBreak then
    bump
    let generator ← eatSign "*"
    let _ ← g.propertyName
    g.functionRest true generator true
    return methodPart s
  if ((← isWord "get") || (← isWord "set")) && !(← standsAlone propertyAlone) then
    let takes ← isWord "set"
    bump
    let offset ← start
    let _ ← g.propertyName
    g.accessorRest takes offset
    return methodPart s
  match ← g.propertyName with
  | none =>
    if ← eatSign ":" then return ⟨← g.assignment, false⟩
    g.functionRest false false true
    return methodPart s
  | some name =>
    if ← eatSign ":" then return ⟨← g.assignment, false⟩
    if ← isSign "(" then
      g.functionRest false false true
      return methodPart s
    let t ← token
    if t.lexeme = .sign "=" || t.lexeme = .sign "," || t.lexeme = .sign "\x7d" then
      if isReserved name.text then throw s
      if strictWords.contains name.text then note s
      let bad := if name.text = "eval" || name.text = "arguments" then some s else none
      if ← eatSign "=" then
        g.assignedValue
        return ⟨⟨s, .other, bad, bad, some s⟩, false⟩
      return ⟨⟨s, .other, bad, bad, none⟩, false⟩
    unexpected

def properties : Nat → Reader (List (Option Part) × Option Nat)
  | 0 => unexpected
  | fuel + 1 => do
    if ← eatSign "\x7d" then return ([], none)
    let part ← g.property
    if ← eatSign "\x7d" then return ([some part], none)
    let comma ← start
    expectSign ","
    if ← eatSign "\x7d" then return ([some part], some comma)
    let (parts, last) ← properties fuel
    return (some part :: parts, last)

def object : Reader Expr := do
  let s ← start
  expectSign "\x7b"
  let (parts, comma) ← within ({ · with allowIn := true }) (g.properties g.fuel)
  return literal s .object parts comma

/-! ## Operands -/

def argumentParts : Nat → Reader (List Part × Option Nat)
  | 0 => unexpected
  | fuel + 1 => do
    if ← eatSign ")" then return ([], none)
    let s ← start
    let part ← if ← eatSign "..." then
        pure (Part.ofSpread s (← g.assignment) false)
      else pure ⟨← g.assignment, false⟩
    if ← eatSign ")" then return ([part], none)
    let comma ← start
    expectSign ","
    if ← eatSign ")" then return ([part], some comma)
    let (parts, last) ← argumentParts fuel
    return (part :: parts, last)

def arguments : Reader Unit := do
  expectSign "("
  let (parts, _) ← within ({ · with allowIn := true }) (g.argumentParts g.fuel)
  parts.forM fun p => useValue p.expr

/-- Reads an expression in parentheses, or the parameters and body of an arrow function.  After
`async` it may also be the arguments of a call. -/
def parenthesized (outer : Nat) (canBeArrow async : Bool) : Reader Expr := do
  let opening ← start
  expectSign "("
  let (parts, comma) ← within ({ · with allowIn := true }) (g.argumentParts g.fuel)
  if ← isSign "=>" then
    if !canBeArrow || (← token).afterBreak then unexpected
    match (literal opening .array (parts.map some) comma).parameter with
    | some offset => note offset
    | none => pure ()
    bump
    g.arrowBody async (parts.all fun p => p.expr.isName && !p.spread)
    return .rigid outer .arrow
  if async then
    parts.forM fun p => useValue p.expr
    return .rigid outer .call
  match parts.find? (·.spread) with
  | some p => throw p.expr.start
  | none => pure ()
  match comma with
  | some offset => note offset
  | none => pure ()
  let value := parts.findSome? (·.expr.value)
  match parts with
  | [] => throw opening
  | [p] =>
    let closed := p.expr.form = .array || p.expr.form = .object || p.expr.form = .assignment
    let target := if closed then some p.expr.start else p.expr.target
    return ⟨outer, .paren, target, some outer, value⟩
  | _ => return .rigid outer .paren value

def nameOrArrow (canBeArrow : Bool) : Reader Expr := do
  let t ← token
  match wordOf t with
  | none => unexpected
  | some w =>
    if isReserved w then unexpected
    bump
    if w = "let" then note t.start
    let after ← token
    if canBeArrow && !after.afterBreak then
      if ← eatSign "=>" then
        if w = "eval" || w = "arguments" then note t.start
        g.arrowBody false true
        return .rigid t.start .arrow
      if w = "async" && t.lexeme = .word "async" false then
        match wordOf after with
        | some v =>
          if !isReserved v then
            let _ ← bindingName
            expectSign "=>"
            g.arrowBody true true
            return .rigid t.start .arrow
        | none => pure ()
    if w = "arguments" && (← setting).inField then note t.start
    let bad := if w = "eval" || w = "arguments" then some t.start else none
    return ⟨t.start, .name w, bad, bad, none⟩

def functionExpression (async : Bool) : Reader Unit := do
  let generator ← eatSign "*"
  within ({ · with inGenerator := generator, inAsync := async }) do
    if !(← isSign "(") then let _ ← bindingName
  g.functionRest async generator false

end Grammar

end SingleFile.Script
