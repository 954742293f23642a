import SingleFile.Script.Binding

/-!
# Statements

Of a statement only the names that it declares are kept.  Some faults are problems only, and the
reading goes on after them: a missing parenthesis after a condition, a variable without the value
it needs, a jump to nowhere.
-/

namespace SingleFile.Script.Grammar

open Reader

variable (g : Grammar)

/-! ## Declarations -/

def variableOne (constant inFor : Bool) : Reader (List Name × Bool) := do
  let s ← start
  let simple := (wordOf (← token)).isSome
  let names ← g.pattern
  if inFor && ((← isWord "of") || (← isWord "in")) then return (names, false)
  if ← eatSign "=" then
    useValue (← g.assignment)
    return (names, true)
  if constant then note s
  else if !simple then throw s
  return (names, false)

structure Variable where
  start : Nat
  names : List Name
  hasValue : Bool

/-- Reads the variables after a keyword that started at `keyword`. -/
def variableList (keyword : Nat) (constant inFor : Bool) : Nat → Reader (List Variable)
  | 0 => unexpected
  | fuel + 1 => do
    if ← isSign ";" then
      let st ← get
      note (if st.lastStart = keyword then st.lastStop else st.lastStart)
      return []
    let s ← start
    let (names, hasValue) ← g.variableOne constant inFor
    let more ← if ← eatSign "," then variableList keyword constant inFor fuel else pure []
    return ⟨s, names, hasValue⟩ :: more

def declaredVariables (inFor : Bool) : Reader (List Variable) := do
  let t ← token
  bump
  let allowIn := !(inFor && Token.isWord t "var")
  within ({ · with allowIn }) (g.variableList t.start (Token.isWord t "const") inFor g.fuel)

def skipStatement : Nat → Reader Unit
  | 0 => pure ()
  | fuel + 1 => do unless ← eatSemicolon do
    bump
    skipStatement fuel

def variableStatement : Reader (List Name) := do
  let vars ← g.declaredVariables false
  unless ← eatSemicolon do
    note (offence (← token))
    tryCatch (do let _ ← g.expression) fun _ => pure ()
    skipStatement g.fuel
  return (vars.map (·.names)).flatten

/-- Reads a function from its keyword on; a name may be missing if it is not `required`. -/
def functionDeclaration (required async : Bool) : Reader (Option Name) := do
  expectWord "function"
  let generator ← eatSign "*"
  let name ← if !required && (← isSign "(") then pure none else some <$> bindingName
  g.functionRest async generator false
  return name

/-- Reads a class from its keyword on; a name may be missing if it is not `required`. -/
def classDeclaration (required : Bool) : Reader (Option Name) := do
  expectWord "class"
  let anonymous ← if required then pure false
    else pure ((← isSign "\x7b") || (← isWord "extends"))
  let name ← if anonymous then pure none else some <$> bindingName
  g.classRest
  return name

/-- Whether the word `let` starts a declaration. -/
def letDeclares : Reader Bool := do
  let next ← peek
  match next.lexeme with
  | .sign s => return s = "\x7b" || s = "["
  | .word w _ => return !isReserved w || w = "yield" || w = "await"
  | _ => return false

/-! ## Control -/

def condition : Reader Unit := do
  expectSign "("
  g.innerExpression
  expectSign ")"

def loopBody : Reader Unit := do
  let _ ← within ({ · with allowBreak := true, allowContinue := true }) (g.statement false)

def block : Reader Unit := do
  expectSign "\x7b"
  g.blockItems

def ifStatement : Reader Unit := do
  bump
  expectSign "("
  g.innerExpression
  unless ← eatSign ")" do note (offence (← token))
  let _ ← g.statement false
  if ← eatWord "else" then let _ ← g.statement false

def countedHead : Reader Unit := do
  unless ← eatSign ";" do
    g.innerExpression
    expectSign ";"
  unless ← isSign ")" do g.innerExpression

/-- Reads what follows the variables of a loop over elements; tells whether it is over values. -/
def elementHead : Reader Bool := do
  if ← eatWord "of" then
    g.assignedValue
    return true
  else
    bump
    g.innerExpression
    return false

/-- Reads the head of a loop; tells whether it runs over values. -/
def forHead : Reader Bool := do
  let declares := (← isWord "const") || (← isWord "var") || ((← isWord "let") && (← letDeclares))
  if declares then
    let vars ← g.declaredVariables true
    if (← isWord "of") || (← isWord "in") then
      match vars with
      | [v] => if v.hasValue then note v.start
      | vars => vars.tail.forM fun v => note v.start
      g.elementHead
    else
      expectSign ";"
      g.countedHead
      return false
  else if ← eatSign ";" then
    g.countedHead
    return false
  else
    let e ← within ({ · with allowIn := false }) g.expression
    if (← isWord "of") || (← isWord "in") then
      match e.target with
      | some offset => note offset
      | none => pure ()
      g.elementHead
    else
      expectSign ";"
      useValue e
      g.countedHead
      return false

def forStatement : Reader Unit := do
  bump
  let await ← start
  let awaits ← eatWord "await"
  expectSign "("
  let overValues ← g.forHead
  expectSign ")"
  g.loopBody
  if awaits && !overValues then throw await

/-- Reads the cases of a choice; `hasDefault` says that the default has been seen. -/
def cases : Nat → Bool → Reader Unit
  | 0, _ => unexpected
  | fuel + 1, hasDefault => do
    if (← isWord "case") || (← isWord "default") then
      let isDefault ← isWord "default"
      bump
      if isDefault then
        if hasDefault then unexpected
      else g.innerExpression
      expectSign ":"
      let _ ← many (do
        if (← isWord "case") || (← isWord "default") || (← isSign "\x7d") then return none
        if decide ((← token).lexeme = .finish) then return none
        let _ ← g.statement true
        return some ()) g.fuel
      cases fuel (hasDefault || isDefault)
    else expectSign "\x7d"

def switchStatement : Reader Unit := do
  bump
  g.condition
  expectSign "\x7b"
  within ({ · with allowBreak := true }) (g.cases g.fuel false)

def catchClause : Reader Bool := do
  if ← eatWord "catch" then
    if ← eatSign "(" then
      let _ ← g.pattern
      expectSign ")"
    g.block
    return true
  else return false

def finallyClause : Reader Bool := do
  if ← eatWord "finally" then
    g.block
    return true
  else return false

def tryStatement : Reader Unit := do
  bump
  g.block
  let s ← start
  let caught ← g.catchClause
  let finished ← g.finallyClause
  unless caught || finished do note s

def jump : Reader Unit := do
  let t ← token
  bump
  let label ← if ← eatSemicolon then pure none
    else
      let name ← anyName
      expectSemicolon
      pure (some name.text)
  let s ← setting
  let known := match label with
    | some l => s.labels.contains l
    | none => true
  let allowed := if Token.isWord t "break" then s.allowBreak || label.isSome else s.allowContinue
  unless known && allowed do note t.start

def labelled (label : String) (s : Nat) : Reader (List Name) := do
  if (← setting).labels.contains label then note s
  within (fun s => { s with labels := label :: s.labels, allowBreak := true }) do
    if ← isWord "function" then
      note (← start)
      return (← g.functionDeclaration true false).toList
    else g.statement false

def expressionStatement : Reader (List Name) := do
  let e ← within ({ · with allowIn := true }) g.expression
  match e.form with
  | .name text => if ← eatSign ":" then return ← g.labelled text e.start
  | _ => pure ()
  useValue e
  unless ← eatSemicolon do
    let t ← token
    match t.lexeme with
    | .sign s => if (precedence s).isSome then note t.start else unexpected
    | _ => unexpected
  return []

def returnStatement : Reader Unit := do
  let s ← start
  bump
  unless ← eatSemicolon do
    g.innerExpression
    expectSemicolon
  let around ← setting
  unless around.inFunction && !around.inStaticBlock do note s

/-- Reads a statement that raises an error; its value may not stand on the next line. -/
def throwStatement : Reader Unit := do
  bump
  if (← token).afterBreak then unexpected
  g.innerExpression
  expectSemicolon

/-- Reads the statement that a word starts, unless the word starts an expression. -/
def keywordStatement (declarations : Bool) (w : String) : Reader (Option (List Name)) := do
  let plain (p : Reader Unit) : Reader (Option (List Name)) := do
    p
    return some []
  match w with
  | "if" => plain g.ifStatement
  | "for" => plain g.forStatement
  | "while" => plain do
    bump
    g.condition
    g.loopBody
  | "do" => plain do
    bump
    g.loopBody
    expectWord "while"
    g.condition
    let _ ← eatSemicolon
  | "with" => plain do
    note (← start)
    bump
    g.condition
    let _ ← g.statement false
  | "switch" => plain g.switchStatement
  | "try" => plain g.tryStatement
  | "catch" => plain do
    note (← start)
    let _ ← g.catchClause
    let _ ← g.finallyClause
  | "finally" => plain do
    note (← start)
    let _ ← g.finallyClause
  | "return" => plain g.returnStatement
  | "throw" => plain g.throwStatement
  | "break" | "continue" => plain jump
  | "debugger" => plain do
    bump
    expectSemicolon
  | "var" => some <$> g.variableStatement
  | "const" => if declarations then some <$> g.variableStatement else return none
  | "let" => if declarations && (← letDeclares) then some <$> g.variableStatement else return none
  | "function" =>
    unless declarations do note (← start)
    return some (← g.functionDeclaration true false).toList
  | "class" =>
    unless declarations do note (← start)
    return some (← g.classDeclaration true).toList
  | "async" =>
    if ← asyncFunctionNext then
      bump
      return some (← g.functionDeclaration true true).toList
    else return none
  | "import" =>
    let next ← peek
    if Token.isSign next "(" || Token.isSign next "." then plain do
      g.innerExpression
      let _ ← eatSemicolon
    else unexpected
  | "export" => unexpected
  | _ => return none

def statementOrDeclaration (declarations : Bool) : Reader (List Name) := do
  match (← token).lexeme with
  | .sign "\x7b" =>
    g.block
    return []
  | .sign ";" =>
    bump
    return []
  | .word w false =>
    match ← g.keywordStatement declarations w with
    | some names => return names
    | none => g.expressionStatement
  | _ => g.expressionStatement

end SingleFile.Script.Grammar
