import SingleFile.Proofs.Script.Steps

/-!
# The steps of the grammar

Every reader of the grammar takes steps, if the readers for the parts of constructs do
(`TakesParts`), which they do at every depth (`takesParts_grammar`).
-/

namespace SingleFile.Script

open Reading

/-- All readers for the parts of constructs are made of steps. -/
@[grind cases]
structure TakesParts (g : Grammar) : Prop where
  assignment : Takes g.assignment
  unary : Takes g.unary
  base : Takes g.base
  constructed : Takes g.constructed
  pattern : Takes g.pattern
  statement (declarations : Bool) : Takes (g.statement declarations)

namespace Grammar

open Reader

/-! ### Readers without parts -/

@[grind .]
theorem takes_useValue (e : Expr) : Takes (useValue e) := by
  unfold useValue
  grind

@[grind .]
theorem takes_directive? : Takes directive? := by
  unfold directive?
  grind

@[grind .]
theorem takes_privateName : Takes privateName := by
  unfold privateName
  grind

@[grind .]
theorem takes_standsAlone (alone : List String) : Takes (standsAlone alone) := by
  unfold standsAlone
  grind

theorem opensPattern {s : Reading} (h : s.token.lexeme = .sign "/" ∨ s.token.lexeme = .sign "/=") :
    s.OpensPattern (if Token.isSign s.token "/=" then '=' :: s.rest else s.rest) := by
  unfold Token.isSign
  rcases h with h | h
  · rw [h]
    exact .inl ⟨h, rfl⟩
  · rw [h]
    exact .inr ⟨h, rfl⟩

/-- A regular expression is read from the sign that opens it. -/
theorem steps_regularExpression {s : Reading}
    (h : s.token.lexeme = .sign "/" ∨ s.token.lexeme = .sign "/=") :
    Steps s (lastState (regularExpression s)) := by
  have hopens := opensPattern h
  unfold regularExpression
  refine steps_get_bind ?_
  dsimp only
  generalize (if Token.isSign s.token "/=" then '=' :: s.rest else s.rest) = cs at hopens ⊢
  cases (readPattern s.token.start (s.token.start + 1) cs).lexeme with
  | broken offset => exact (Step.broken s offset).single
  | _ => exact (Step.moved s (.pattern hopens) _ _).single

@[grind ←]
theorem takes_rigidly {p : Reader Unit} (hp : Takes p) : Takes (rigidly p) := by
  unfold rigidly
  grind

theorem steps_rigidly_regularExpression {s : Reading}
    (h : s.token.lexeme = .sign "/" ∨ s.token.lexeme = .sign "/=") :
    Steps s (lastState (rigidly regularExpression s)) :=
  steps_bind (p := regularExpression) (steps_regularExpression h) fun _ => takes_pure _

@[grind .]
theorem takes_asyncFunctionNext : Takes asyncFunctionNext := by
  unfold asyncFunctionNext
  grind

@[grind .]
theorem takes_member (e : Expr) : Takes (member e) := by
  unfold member
  grind

@[grind .]
theorem takes_simpleTarget (e : Expr) : Takes (simpleTarget e) := by
  unfold simpleTarget
  grind

@[grind .]
theorem takes_skipStatement (fuel : Nat) : Takes (skipStatement fuel) := by
  induction fuel with
  | zero =>
    unfold skipStatement
    grind
  | succ fuel ih =>
    unfold skipStatement
    grind

@[grind .]
theorem takes_letDeclares : Takes letDeclares := by
  unfold letDeclares
  grind

@[grind .]
theorem takes_jump : Takes jump := by
  unfold jump
  grind

@[grind .]
theorem takes_spanFrom (s : Nat) : Takes (spanFrom s) := by
  unfold spanFrom
  grind

@[grind .]
theorem takes_sourceString : Takes sourceString := by
  unfold sourceString
  grind

@[grind .]
theorem takes_clauseName : Takes clauseName := by
  unfold clauseName
  grind

@[grind .]
theorem takes_importName : Takes importName := by
  unfold importName
  grind

@[grind .]
theorem takes_importClause (g : Grammar) : Takes g.importClause := by
  unfold importClause
  grind

@[grind .]
theorem takes_phaseWordNext : Takes phaseWordNext := by
  unfold phaseWordNext
  grind

@[grind .]
theorem takes_exportName : Takes exportName := by
  unfold exportName
  grind

section Parts

variable {g : Grammar} (hg : TakesParts g)

include hg

/-! ### Expressions -/

@[grind .]
theorem takes_assignedValue : Takes g.assignedValue := by
  unfold assignedValue
  grind

@[grind .]
theorem takes_sequenceTail (fuel : Nat) (e : Expr) : Takes (g.sequenceTail fuel e) := by
  induction fuel generalizing e with
  | zero => exact takes_unexpected
  | succ fuel ih =>
    unfold sequenceTail
    grind

@[grind .]
theorem takes_expression : Takes g.expression := by
  unfold expression
  grind

@[grind .]
theorem takes_innerExpression : Takes g.innerExpression := by
  unfold innerExpression
  grind

/-! ### Functions and classes -/

@[grind .]
theorem takes_blockItems : Takes g.blockItems := by
  unfold blockItems
  grind

@[grind .]
theorem takes_functionBody (simple : Bool) : Takes (g.functionBody simple) := by
  unfold functionBody
  refine takes_bind (takes_expectSign _) fun _ => takes_bind ?_ fun strict => ?_
  · grind
  · grind

@[grind .]
theorem takes_boundElement : Takes g.boundElement := by
  unfold boundElement
  grind

@[grind .]
theorem takes_parameters : Takes g.parameters := by
  unfold parameters
  refine takes_bind (takes_commaList _ _ ?_) fun parts => ?_
  · refine takes_bind takes_start fun s => takes_bind (takes_eatSign _) fun spread => ?_
    grind
  · grind

@[grind ←]
theorem takes_functionWith (async generator method : Bool) {check : Parameters → Reader Unit}
    (hcheck : ∀ parameters, Takes (check parameters)) :
    Takes (g.functionWith async generator method check) := by
  unfold functionWith
  grind

@[grind .]
theorem takes_functionRest (async generator method : Bool) :
    Takes (g.functionRest async generator method) := by
  unfold functionRest
  grind

@[grind .]
theorem takes_accessorRest (takes : Bool) (offset : Nat) : Takes (g.accessorRest takes offset) := by
  unfold accessorRest
  grind

@[grind .]
theorem takes_arrowBody (async simple : Bool) : Takes (g.arrowBody async simple) := by
  unfold arrowBody
  grind

@[grind .]
theorem takes_propertyName : Takes g.propertyName := by
  unfold propertyName
  grind

@[grind .]
theorem takes_memberName : Takes g.memberName := by
  unfold memberName
  grind

@[grind .]
theorem takes_memberRest (isStatic : Bool) (name : MemberName) :
    Takes (g.memberRest isStatic name) := by
  unfold memberRest
  refine takes_bind (takes_isSign _) fun call => ?_
  split
  · grind
  refine takes_bind (takes_eatSign _) fun value => ?_
  split
  · split
    · grind
    · grind
  · grind

@[grind .]
theorem takes_memberAfterStatic (isStatic : Bool) : Takes (g.memberAfterStatic isStatic) := by
  unfold memberAfterStatic
  refine takes_bind takes_start fun s => takes_bind (takes_eatSign _) fun generator => ?_
  split
  · grind
  refine takes_bind (takes_isWord _) fun async => ?_
  split
  · refine takes_bind (takes_standsAlone _) fun alone => takes_bind takes_peek fun next => ?_
    grind
  refine takes_bind (takes_isWord _) fun getter => takes_bind (takes_isWord _) fun setter => ?_
  split
  · refine takes_bind (takes_isWord _) fun takes => takes_bind takes_peek fun next => ?_
    grind
  · grind

@[grind .]
theorem takes_classMember : Takes g.classMember := by
  unfold classMember
  grind

@[grind .]
theorem takes_classRest : Takes g.classRest := by
  have hmember : Takes (many (do
      if ← isSign "\x7d" then return none
      if ← eatSign ";" then return some none
      return some (← g.classMember)) g.fuel) := by
    grind
  unfold classRest
  refine takes_bind (takes_eatWord _) fun extended => ?_
  split
  · refine takes_bind hg.base fun e => takes_bind (takes_useValue e) fun _ => ?_
    grind
  · grind

/-! ### Literals -/

@[grind .]
theorem takes_templatePieces (start : Nat) (tagged : Bool) (fuel : Nat) :
    Takes (g.templatePieces start tagged fuel) := by
  induction fuel with
  | zero => exact takes_unexpected
  | succ fuel ih =>
    unfold templatePieces
    refine takes_get_bind fun s => ?_
    have hrest : Takes (do
        if (readTemplate s.token.stop s.rest).ending = .substitution then
          g.innerExpression
          if ← isSign "\x7d" then g.templatePieces start tagged fuel else unexpected) := by
      grind
    dsimp only
    by_cases hopen : (readTemplate s.token.stop s.rest).ending = .unclosed
    · rw [if_pos hopen]
      exact .refl s
    · rw [if_neg hopen]
      cases (readTemplate s.token.stop s.rest).refused? with
      | none =>
        refine steps_modify_bind (.moved s .template start _) ?_
        exact hrest
      | some offset =>
        cases tagged with
        | false => exact .refl s
        | true =>
          refine steps_modify_bind (.moved s .template start _) ?_
          exact hrest

@[grind .]
theorem takes_template (tagged : Bool) : Takes (g.template tagged) := by
  unfold template
  grind

@[grind .]
theorem takes_elements (fuel : Nat) : Takes (g.elements fuel) := by
  induction fuel with
  | zero => exact takes_unexpected
  | succ fuel ih =>
    unfold elements
    refine takes_bind (takes_eatSign _) fun closed => ?_
    split
    · grind
    refine takes_bind (takes_eatSign _) fun hole => ?_
    split
    · grind
    refine takes_bind takes_start fun s => takes_bind (takes_eatSign _) fun spread => ?_
    split
    · refine takes_bind hg.assignment fun e => ?_
      grind
    · refine takes_bind hg.assignment fun e => ?_
      grind

@[grind .]
theorem takes_array : Takes g.array := by
  unfold array
  grind

@[grind .]
theorem takes_property : Takes g.property := by
  unfold property
  refine takes_bind takes_start fun s => takes_bind (takes_eatSign _) fun spread => ?_
  refine takes_ite (by grind) (takes_bind (takes_eatSign _) fun generator => ?_)
  refine takes_ite (by grind) (takes_bind (takes_isWord _) fun async => ?_)
  refine takes_bind (takes_standsAlone _) fun alone => takes_bind takes_peek fun next => ?_
  refine takes_ite (by grind) (takes_bind (takes_isWord _) fun getter => ?_)
  refine takes_bind (takes_isWord _) fun setter => takes_bind (takes_standsAlone _) fun alone => ?_
  refine takes_ite (by grind) (takes_bind (takes_propertyName hg) fun name => ?_)
  cases name with
  | none => grind
  | some name =>
    refine takes_bind (takes_eatSign _) fun colon => takes_ite (by grind) ?_
    refine takes_bind (takes_isSign _) fun call => takes_ite (by grind) ?_
    exact takes_bind takes_token fun t => takes_ite (by grind) takes_unexpected

@[grind .]
theorem takes_properties (fuel : Nat) : Takes (g.properties fuel) := by
  induction fuel with
  | zero => exact takes_unexpected
  | succ fuel ih =>
    unfold properties
    grind

@[grind .]
theorem takes_object : Takes g.object := by
  unfold object
  grind

/-! ### Operands -/

@[grind .]
theorem takes_argumentParts (fuel : Nat) : Takes (g.argumentParts fuel) := by
  induction fuel with
  | zero => exact takes_unexpected
  | succ fuel ih =>
    unfold argumentParts
    refine takes_bind (takes_eatSign _) fun closed => ?_
    split
    · grind
    refine takes_bind takes_start fun s => takes_bind (takes_eatSign _) fun spread => ?_
    split
    · refine takes_bind hg.assignment fun e => ?_
      grind
    · refine takes_bind hg.assignment fun e => ?_
      grind

@[grind .]
theorem takes_arguments : Takes g.arguments := by
  unfold arguments
  grind

/-- What follows an opening parenthesis is read in steps. -/
theorem exists_parenthesized (outer : Nat) (canBeArrow async : Bool) :
    ∃ rest : Nat → Reader Expr, (∀ opening, Takes (rest opening)) ∧
      g.parenthesized outer canBeArrow async =
        start >>= fun opening => expectSign "(" >>= fun _ => rest opening := by
  refine ⟨_, fun opening => ?_, rfl⟩
  refine takes_bind ?_ fun parts => takes_bind (takes_isSign _) fun arrow => ?_
  · grind
  dsimp only
  split
  · refine takes_bind takes_token fun t => ?_
    split
    · grind
    · split
      · grind
      · grind
  · split
    · grind
    · split
      · grind
      · split
        · grind
        · grind

@[grind .]
theorem takes_parenthesized (outer : Nat) (canBeArrow async : Bool) :
    Takes (g.parenthesized outer canBeArrow async) := by
  obtain ⟨rest, hrest, heq⟩ := exists_parenthesized hg outer canBeArrow async
  rw [heq]
  grind

@[grind .]
theorem takes_nameOrArrow (canBeArrow : Bool) : Takes (g.nameOrArrow canBeArrow) := by
  unfold nameOrArrow
  refine takes_bind takes_token fun t => ?_
  cases wordOf t with
  | none => exact takes_unexpected
  | some w =>
    refine takes_ite_bind takes_unexpected (takes_bind takes_bump fun _ => ?_)
    grind

@[grind .]
theorem takes_functionExpression (async : Bool) : Takes (g.functionExpression async) := by
  unfold functionExpression
  grind

@[grind .]
theorem takes_classExpression : Takes g.classExpression := by
  unfold classExpression
  grind

@[grind .]
theorem takes_primary : Takes g.primary := by
  unfold primary
  refine fun s => steps_token_bind ?_
  have hplain {p : Reader Expr} (hp : Takes p) : Steps s (lastState (p s)) := hp s
  dsimp only
  split
  case h_7 h => exact steps_get_bind (steps_rigidly_regularExpression (.inl h))
  case h_8 h => exact steps_get_bind (steps_rigidly_regularExpression (.inr h))
  all_goals exact hplain (by grind)

@[grind .]
theorem takes_indexed (e : Expr) : Takes (g.indexed e) := by
  unfold indexed
  grind

@[grind .]
theorem takes_following (calls : Bool) (fuel : Nat) (e : Expr) :
    Takes (g.following calls fuel e) := by
  induction fuel generalizing e with
  | zero => exact takes_unexpected
  | succ fuel ih =>
    unfold following
    grind

@[grind .]
theorem takes_withFollowing (calls : Bool) (e : Expr) : Takes (g.withFollowing calls e) := by
  unfold withFollowing
  grind

@[grind .]
theorem takes_ofSuper (calls : Bool) : Takes (g.ofSuper calls) := by
  unfold ofSuper
  refine takes_bind takes_start fun s => takes_bind takes_bump fun _ =>
    takes_bind takes_setting fun around => ?_
  grind

@[grind .]
theorem takes_ofImport (calls : Bool) : Takes (g.ofImport calls) := by
  unfold ofImport
  grind

@[grind .]
theorem takes_operandWith (calls : Bool) : Takes (g.operandWith calls) := by
  unfold operandWith
  refine takes_bind takes_start fun s => takes_bind (takes_isWord _) fun isNew => ?_
  split
  · refine takes_bind takes_bump fun _ => takes_bind (takes_eatSign _) fun point => ?_
    split
    · grind
    · refine takes_bind hg.constructed fun callee => ?_
      grind
  · grind

@[grind .]
theorem takes_operand : Takes g.operand := by
  unfold operand
  grind

/-! ### Operators -/

@[grind .]
theorem takes_awaited : Takes g.awaited := by
  unfold awaited
  refine takes_bind takes_start fun s => takes_bind takes_setting fun around =>
    takes_bind takes_bump fun _ => takes_bind (takes_isSign _) fun star => ?_
  grind

@[grind .]
theorem takes_unaryExpression : Takes g.unaryExpression := by
  unfold unaryExpression
  refine takes_bind takes_token fun t => ?_
  grind

@[grind .]
theorem takes_operatorOperand : Takes g.operatorOperand := by
  unfold operatorOperand
  grind

@[grind .]
theorem takes_binaryTail (fuel least : Nat) (e : Expr) : Takes (g.binaryTail fuel least e) := by
  induction fuel generalizing least e with
  | zero => exact takes_unexpected
  | succ fuel ih =>
    unfold binaryTail
    refine takes_bind takes_token fun t => takes_bind takes_setting fun around => ?_
    split
    · grind
    split
    · grind
    refine takes_bind takes_bump fun _ => ?_
    grind

@[grind .]
theorem takes_binary : Takes g.binary := by
  unfold binary
  grind

@[grind .]
theorem takes_conditional : Takes g.conditional := by
  unfold conditional
  grind

@[grind .]
theorem takes_yielded : Takes g.yielded := by
  unfold yielded
  grind

@[grind .]
theorem takes_assignmentTo (e : Expr) : Takes (g.assignmentTo e) := by
  unfold assignmentTo
  refine takes_bind takes_token fun t => ?_
  split
  · split
    · grind
    · split <;> grind
  · grind
  · grind

@[grind .]
theorem takes_assignmentExpression : Takes g.assignmentExpression := by
  unfold assignmentExpression
  refine takes_bind takes_start fun s => takes_bind takes_setting fun around =>
    takes_bind (takes_isWord _) fun yields => ?_
  split
  · exact takes_yielded hg
  · refine takes_bind (takes_modify fun st => .marked st (some s)) fun _ => ?_
    grind

/-! ### Patterns -/

@[grind .]
theorem takes_boundElements (fuel : Nat) (rest : Option Nat) :
    Takes (g.boundElements fuel rest) := by
  induction fuel generalizing rest with
  | zero => exact takes_unexpected
  | succ fuel ih =>
    unfold boundElements
    refine takes_bind (takes_eatSign _) fun closed => ?_
    split
    · grind
    refine takes_bind (takes_eatSign _) fun hole => ?_
    split
    · grind
    dsimp only
    split
    · refine takes_bind (takes_note _) fun _ => takes_bind takes_start fun s =>
        takes_bind (takes_eatSign _) fun spread => ?_
      grind
    · refine takes_bind takes_start fun s => takes_bind (takes_eatSign _) fun spread => ?_
      grind

@[grind .]
theorem takes_boundProperty : Takes g.boundProperty := by
  unfold boundProperty
  grind

@[grind .]
theorem takes_boundProperties (fuel : Nat) : Takes (g.boundProperties fuel) := by
  induction fuel with
  | zero => exact takes_unexpected
  | succ fuel ih =>
    unfold boundProperties
    refine takes_bind (takes_eatSign _) fun closed => ?_
    split
    · grind
    refine takes_bind takes_start fun s => takes_bind (takes_boundProperty hg) fun property => ?_
    grind

@[grind .]
theorem takes_bindingPattern : Takes g.bindingPattern := by
  unfold bindingPattern
  grind

/-! ### Statements -/

@[grind .]
theorem takes_variableOne (constant inFor : Bool) : Takes (g.variableOne constant inFor) := by
  unfold variableOne
  refine takes_bind takes_start fun s => takes_bind takes_token fun t =>
    takes_bind hg.pattern fun names => ?_
  grind

@[grind .]
theorem takes_variableList (keyword : Nat) (constant inFor : Bool) (fuel : Nat) :
    Takes (g.variableList keyword constant inFor fuel) := by
  induction fuel with
  | zero => exact takes_unexpected
  | succ fuel ih =>
    unfold variableList
    grind

@[grind .]
theorem takes_declaredVariables (inFor : Bool) : Takes (g.declaredVariables inFor) := by
  unfold declaredVariables
  grind

/-- What follows declared variables is read in steps. -/
theorem exists_variableStatement :
    ∃ rest : List Variable → Reader (List Name), (∀ vars, Takes (rest vars)) ∧
      g.variableStatement = g.declaredVariables false >>= rest := by
  refine ⟨_, fun vars => takes_bind takes_eatSemicolon fun ended => ?_, rfl⟩
  dsimp only
  split
  · grind
  · refine takes_bind takes_token fun t => takes_bind (takes_note _) fun _ => ?_
    refine takes_bind ?_ fun _ => ?_
    · refine takes_tryCatch (takes_bind (takes_expression hg) fun _ => takes_pure _) fun _ => ?_
      exact takes_pure _
    · grind

@[grind .]
theorem takes_variableStatement : Takes g.variableStatement := by
  obtain ⟨rest, hrest, heq⟩ := exists_variableStatement hg
  rw [heq]
  grind

@[grind .]
theorem takes_functionDeclaration (required async : Bool) :
    Takes (g.functionDeclaration required async) := by
  unfold functionDeclaration
  grind

@[grind .]
theorem takes_classDeclaration (required : Bool) : Takes (g.classDeclaration required) := by
  unfold classDeclaration
  grind

@[grind .]
theorem takes_condition : Takes g.condition := by
  unfold condition
  grind

@[grind .]
theorem takes_loopBody : Takes g.loopBody := by
  unfold loopBody
  grind

@[grind .]
theorem takes_block : Takes g.block := by
  unfold block
  grind

@[grind .]
theorem takes_ifStatement : Takes g.ifStatement := by
  unfold ifStatement
  refine takes_bind takes_bump fun _ => takes_bind (takes_expectSign _) fun _ =>
    takes_bind (takes_innerExpression hg) fun _ => ?_
  grind

@[grind .]
theorem takes_countedHead : Takes g.countedHead := by
  unfold countedHead
  grind

@[grind .]
theorem takes_elementHead : Takes g.elementHead := by
  unfold elementHead
  grind

@[grind .]
theorem takes_forHead : Takes g.forHead := by
  unfold forHead
  refine takes_bind (takes_isWord _) fun constant => takes_bind (takes_isWord _) fun mutable =>
    takes_bind (takes_isWord _) fun lexical => takes_bind takes_letDeclares fun declares => ?_
  dsimp only
  split
  · grind
  · refine takes_bind (takes_eatSign _) fun counted => ?_
    split
    · grind
    · refine takes_bind (takes_within _ (takes_expression hg)) fun e => ?_
      grind

@[grind .]
theorem takes_forStatement : Takes g.forStatement := by
  unfold forStatement
  grind

@[grind .]
theorem takes_cases (fuel : Nat) (hasDefault : Bool) : Takes (g.cases fuel hasDefault) := by
  induction fuel generalizing hasDefault with
  | zero => exact takes_unexpected
  | succ fuel ih =>
    have hstatements : Takes (many (do
        if (← isWord "case") || (← isWord "default") || (← isSign "\x7d") then return none
        if decide ((← token).lexeme = .finish) then return none
        let _ ← g.statement true
        return some ()) g.fuel) := by
      grind
    unfold Grammar.cases
    refine takes_bind (takes_isWord _) fun case => takes_bind (takes_isWord _) fun default => ?_
    dsimp only
    split
    · refine takes_bind (takes_isWord _) fun isDefault => takes_bind takes_bump fun _ => ?_
      grind
    · grind

@[grind .]
theorem takes_switchStatement : Takes g.switchStatement := by
  unfold switchStatement
  grind

@[grind .]
theorem takes_catchClause : Takes g.catchClause := by
  unfold catchClause
  grind

@[grind .]
theorem takes_finallyClause : Takes g.finallyClause := by
  unfold finallyClause
  grind

@[grind .]
theorem takes_tryStatement : Takes g.tryStatement := by
  unfold tryStatement
  grind

@[grind .]
theorem takes_labelled (label : String) (s : Nat) : Takes (g.labelled label s) := by
  unfold labelled
  grind

@[grind .]
theorem takes_expressionStatement : Takes g.expressionStatement := by
  unfold expressionStatement
  refine takes_bind ?_ fun e => ?_
  · grind
  · dsimp only
    split
    · grind
    · grind

@[grind .]
theorem takes_returnStatement : Takes g.returnStatement := by
  unfold returnStatement
  grind

@[grind .]
theorem takes_throwStatement : Takes g.throwStatement := by
  unfold throwStatement
  grind

@[grind .]
theorem takes_keywordStatement (declarations : Bool) (w : String) :
    Takes (g.keywordStatement declarations w) := by
  have hplain {p : Reader Unit} (hp : Takes p) :
      Takes (do p; return some [] : Reader (Option (List Name))) :=
    takes_bind hp fun _ => takes_pure _
  unfold keywordStatement
  dsimp only
  split
  · exact hplain (takes_ifStatement hg)
  · exact hplain (takes_forStatement hg)
  · refine hplain (takes_bind takes_bump fun _ => takes_bind (takes_condition hg) fun _ => ?_)
    exact takes_loopBody hg
  · refine hplain (takes_bind takes_bump fun _ => takes_bind (takes_loopBody hg) fun _ => ?_)
    grind
  · refine hplain (takes_bind takes_start fun s => takes_bind (takes_note s) fun _ => ?_)
    grind
  · exact hplain (takes_switchStatement hg)
  · exact hplain (takes_tryStatement hg)
  · refine hplain (takes_bind takes_start fun s => takes_bind (takes_note s) fun _ => ?_)
    grind
  · refine hplain (takes_bind takes_start fun s => takes_bind (takes_note s) fun _ => ?_)
    grind
  · exact hplain (takes_returnStatement hg)
  · exact hplain (takes_throwStatement hg)
  · exact hplain takes_jump
  · exact hplain takes_jump
  · exact hplain (takes_bind takes_bump fun _ => takes_expectSemicolon)
  · grind
  · grind
  · grind
  · grind
  · grind
  · grind
  · refine takes_bind takes_peek fun next => ?_
    split
    · refine hplain (takes_bind (takes_innerExpression hg) fun _ => ?_)
      exact takes_bind takes_eatSemicolon fun _ => takes_pure _
    · exact takes_unexpected
  · exact takes_unexpected
  · exact takes_pure _

@[grind .]
theorem takes_statementOrDeclaration (declarations : Bool) :
    Takes (g.statementOrDeclaration declarations) := by
  unfold statementOrDeclaration
  grind

/-! ### Modules -/

@[grind .]
theorem takes_importAttributes : Takes g.importAttributes := by
  unfold importAttributes
  grind

@[grind .]
theorem takes_fromClause : Takes g.fromClause := by
  unfold fromClause
  grind

@[grind .]
theorem takes_importItem : Takes g.importItem := by
  unfold importItem
  refine takes_bind takes_start fun s => takes_bind takes_bump fun _ =>
    takes_bind takes_token fun t => ?_
  dsimp only
  split
  · grind
  · have hrest : Takes (do
        let isName := (wordOf (← token)).isSome
        let first ← if isName then pure [ImportBinding.default (← bindingName)] else pure []
        let bindings ← if isName && (← isWord "from") then pure []
          else
            if isName then expectSign ","
            g.importClause
        let source ← g.fromClause
        return Item.importing (← spanFrom s) (first ++ bindings) source) := by
      refine takes_bind takes_token fun next => ?_
      grind
    refine takes_bind takes_phaseWordNext fun phase => ?_
    split
    · exact takes_bind takes_bump fun _ => hrest
    · exact hrest

@[grind .]
theorem takes_exportDefaultItem (s : Nat) : Takes (g.exportDefaultItem s) := by
  unfold exportDefaultItem
  grind

@[grind .]
theorem takes_exportStarItem (s : Nat) : Takes (g.exportStarItem s) := by
  unfold exportStarItem
  grind

@[grind .]
theorem takes_exportClauseItem (s : Nat) : Takes (g.exportClauseItem s) := by
  unfold exportClauseItem
  grind

@[grind .]
theorem takes_exportItem : Takes g.exportItem := by
  unfold exportItem
  refine takes_bind takes_start fun s => takes_bind takes_bump fun _ =>
    takes_bind takes_start fun inner => takes_bind takes_token fun t => ?_
  grind

@[grind .]
theorem takes_moduleItem : Takes g.moduleItem := by
  unfold moduleItem
  grind

@[grind .]
theorem takes_moduleItems : Takes g.moduleItems := by
  unfold moduleItems
  grind

end Parts

end Grammar

/-- The grammar takes steps at every depth. -/
theorem takesParts_grammar (fuel depth : Nat) : TakesParts (grammar fuel depth) := by
  induction depth with
  | zero =>
    unfold grammar
    constructor <;> intros <;> exact Reader.takes_unexpected
  | succ depth ih =>
    unfold grammar
    exact {
      assignment := Grammar.takes_assignmentExpression ih
      unary := Grammar.takes_unaryExpression ih
      base := Grammar.takes_operand ih
      constructed := Grammar.takes_operandWith ih false
      pattern := Grammar.takes_bindingPattern ih
      statement := Grammar.takes_statementOrDeclaration ih }

end SingleFile.Script
