import SingleFile.Proofs.Script.Progress

/-!
# Readers that move

An expression, a function, a class and a declaration of variables take one token at least: a reader
`Moves` if what it has read ends behind the start of the token that it found.
-/

namespace SingleFile.Script

open Reading

def Moves {α : Type} (p : Reader α) : Prop :=
  ∀ script s a t, s.Sound script → p s = .ok a t → s.token.start ≤ t.lastStop

/-- A reader that finds something moves over the current token. -/
def MovesIfFound {α : Type} (p : Reader (Option α)) : Prop :=
  ∀ script s a t, s.Sound script → p s = .ok (some a) t → s.token.start ≤ t.lastStop

section Readers

variable {α β : Type} {p : Reader α}

theorem Moves.ifFound {p : Reader (Option α)} (h : Moves p) : MovesIfFound p :=
  fun script s a t hs hrun => h script s (some a) t hs hrun

theorem movesIfFound_none : MovesIfFound (pure none : Reader (Option α)) := by
  intro script s a t hs h
  cases h

theorem movesIfFound_bind {f : α → Reader (Option β)} (hp : Takes p)
    (hf : ∀ a, MovesIfFound (f a)) : MovesIfFound (p >>= f) := by
  intro script s b t hs h
  obtain ⟨a, u, hfirst, hrest⟩ := bind_eq_ok h
  obtain ⟨hu, hafter⟩ := hp.sound hs hfirst
  exact Nat.le_trans hafter.start (hf a script u b t hu hrest)

theorem moves_throw (offset : Nat) : Moves (throw offset : Reader α) := by
  intro script s a t hs h
  cases h

/-- Where the first reader moves, the rest only goes on. -/
theorem moves_bind_left {f : α → Reader β} (hp : Takes p) (hmoves : Moves p)
    (hf : ∀ a, Takes (f a)) : Moves (p >>= f) := by
  intro script s b t hs h
  obtain ⟨a, u, hfirst, hrest⟩ := bind_eq_ok h
  obtain ⟨hu, -⟩ := hp.sound hs hfirst
  exact Nat.le_trans (hmoves script s a u hs hfirst) ((hf a).sound hu hrest).2.lastStop

/-- Where the rest moves, it moves over what the first reader has found as well. -/
theorem moves_bind_right {f : α → Reader β} (hp : Takes p) (hf : ∀ a, Moves (f a)) :
    Moves (p >>= f) := by
  intro script s b t hs h
  obtain ⟨a, u, hfirst, hrest⟩ := bind_eq_ok h
  obtain ⟨hu, hafter⟩ := hp.sound hs hfirst
  exact Nat.le_trans hafter.start (hf a script u b t hu hrest)

theorem moves_ite_bind {c : Prop} [Decidable c] {p : Reader Unit} {f : Unit → Reader β}
    (hp : Takes p) (hf : Moves (f ())) : Moves (if c then p >>= f else f ()) := by
  split
  · exact moves_bind_right hp fun _ => hf
  · exact hf

theorem moves_map {f : α → β} (hp : Takes p) (hmoves : Moves p) : Moves (f <$> p) :=
  moves_bind_left hp hmoves fun _ => takes_pure _

theorem moves_tryCatch {f : Nat → Reader α} (hp : Takes p) (hmoves : Moves p)
    (hf : ∀ offset, Moves (f offset)) : Moves (tryCatch p f) := by
  intro script s a t hs h
  rcases tryCatch_eq_ok h with h | ⟨offset, u, hfails, h⟩
  · exact hmoves script s a t hs h
  · obtain ⟨hu, hafter⟩ := hp.sound_error hs hfails
    exact Nat.le_trans hafter.start (hf offset script u a t hu h)

theorem moves_get_bind {f : Reading → Reader β}
    (hf : ∀ script s a t, s.Sound script → f s s = .ok a t → s.token.start ≤ t.lastStop) :
    Moves (get >>= f) := hf

theorem moves_token_bind {f : Token → Reader β}
    (hf : ∀ script s a t, s.Sound script → f s.token s = .ok a t → s.token.start ≤ t.lastStop) :
    Moves (Reader.token >>= f) := hf

/-- What goes on where the reading resumes has moved. -/
theorem start_le_of_moved {script : List Char} {s t : Reading} (hs : s.Sound script) {stop : Nat}
    {rest : List Char} (hresumes : s.Resumes stop rest) {lastStart : Nat} {problems : List Nat}
    (hp : Takes p) {a : α} (h : p { s with
      token := (readToken false stop rest).1, rest := (readToken false stop rest).2.1
      lastStart, lastStop := stop, problems } = .ok a t) : s.token.start ≤ t.lastStop := by
  obtain ⟨hmoved, -⟩ := (Step.moved s hresumes lastStart problems).sound hs
  obtain ⟨behind, front, hstands⟩ := hs
  exact Nat.le_trans (hresumes.before hstands).le (hp.sound hmoved h).2.lastStop

namespace Reader

theorem moves_unexpected : Moves (unexpected : Reader α) :=
  moves_bind_right takes_token fun _ => moves_throw _

theorem moves_bump : Moves bump := by
  intro script s a t hs h
  cases h
  exact hs.stop

theorem moves_bump_bind {f : Unit → Reader β} (hf : ∀ a, Takes (f a)) : Moves (bump >>= f) :=
  moves_bind_left takes_bump moves_bump hf

theorem moves_within (change : Setting → Setting) (hp : Takes p) (hmoves : Moves p) :
    Moves (within change p) := by
  have hset (f : Setting → Setting) :
      Takes (modify fun s => { s with setting := f s.setting } : Reader Unit) :=
    takes_modify fun s => .allowed s _
  refine moves_bind_right takes_get fun old => moves_bind_right (hset change) fun _ => ?_
  refine moves_bind_left (takes_tryCatch ?body fun offset => ?back)
    (moves_tryCatch ?body ?moves fun offset => ?fails) fun r => ?_
  case body =>
    exact takes_bind hp fun a => takes_bind (hset fun _ => old.setting) fun _ => takes_pure _
  case back =>
    exact takes_bind (hset fun _ => old.setting) fun _ => takes_bind (takes_throw offset) fun _ =>
      takes_pure _
  case moves =>
    exact moves_bind_left hp hmoves fun a => takes_bind (hset fun _ => old.setting) fun _ =>
      takes_pure _
  case fails =>
    refine moves_bind_right (hset fun _ => old.setting) fun _ => ?_
    exact moves_bind_left (takes_throw offset) (moves_throw offset) fun _ => takes_pure _
  cases r <;> exact takes_pure _

/-- A token that has to stand where it is asked for is moved over. -/
theorem moves_expect {ask : Reader Bool} (hask : Takes ask) :
    Moves (do
      unless ← (do
        if ← ask then
          bump
          return true
        else return false) do unexpected) := by
  simp only [bind_assoc]
  refine moves_bind_right hask fun found => ?_
  cases found with
  | true => exact moves_bump_bind fun _ => takes_pure ()
  | false => exact moves_unexpected

theorem moves_expectSign (sign : String) : Moves (expectSign sign) :=
  moves_expect (takes_isSign sign)

theorem moves_expectWord (word : String) : Moves (expectWord word) :=
  moves_expect (takes_isWord word)

end Reader

end Readers

namespace Grammar

open Reader

theorem moves_rigidly {p : Reader Unit} (hp : Takes p) (hmoves : Moves p) : Moves (rigidly p) :=
  moves_bind_right takes_start fun _ => moves_bind_left hp hmoves fun _ => takes_pure _

theorem moves_privateName : Moves privateName := by
  unfold privateName
  refine moves_bind_right takes_token fun sign => ?_
  exact moves_bind_left (takes_expectSign "#") (moves_expectSign "#") fun _ => by grind

/-- A regular expression is moved over from the sign that opens it. -/
theorem start_le_of_regularExpression {script : List Char} {s t : Reading} (hs : s.Sound script)
    (hsign : s.token.lexeme = .sign "/" ∨ s.token.lexeme = .sign "/=") {e : Expr}
    (h : rigidly regularExpression s = .ok e t) : s.token.start ≤ t.lastStop := by
  have hopens := opensPattern hsign
  obtain ⟨n, u, hstart, h⟩ := bind_eq_ok h
  cases hstart
  obtain ⟨_, u, hread, h⟩ := bind_eq_ok h
  cases h
  unfold regularExpression at hread
  obtain ⟨s', u, hget, hread⟩ := bind_eq_ok hread
  cases hget
  dsimp only at hread
  generalize (if Token.isSign s.token "/=" then '=' :: s.rest else s.rest) = cs at hopens hread
  cases hlexeme : (readPattern s.token.start (s.token.start + 1) cs).lexeme with
  | broken offset =>
    rw [hlexeme] at hread
    cases hread
  | _ =>
    rw [hlexeme] at hread
    exact start_le_of_moved hs (.pattern hopens) (takes_pure ()) hread

theorem precedence?_pos {t : Token} {allowIn : Bool} {p : Nat}
    (h : t.precedence? allowIn = some p) : 0 < p := by
  unfold Token.precedence? precedence at h
  grind

section Parts

variable {g : Grammar} (hg : TakesParts g)

include hg

theorem moves_functionDeclaration (required async : Bool) :
    Moves (g.functionDeclaration required async) :=
  moves_bind_left (takes_expectWord _) (moves_expectWord _) fun _ => by grind

theorem moves_classDeclaration (required : Bool) : Moves (g.classDeclaration required) :=
  moves_bind_left (takes_expectWord _) (moves_expectWord _) fun _ => by grind

theorem moves_declaredVariables (inFor : Bool) : Moves (g.declaredVariables inFor) :=
  moves_bind_right takes_token fun t => moves_bump_bind fun _ => by grind

theorem moves_variableStatement : Moves g.variableStatement := by
  obtain ⟨rest, hrest, heq⟩ := exists_variableStatement hg
  rw [heq]
  exact moves_bind_left (takes_declaredVariables hg _) (moves_declaredVariables hg _) hrest

theorem moves_array : Moves g.array :=
  moves_bind_right takes_start fun s =>
    moves_bind_left (takes_expectSign _) (moves_expectSign _) fun _ => by grind

theorem moves_object : Moves g.object :=
  moves_bind_right takes_start fun s =>
    moves_bind_left (takes_expectSign _) (moves_expectSign _) fun _ => by grind

theorem moves_parenthesized (outer : Nat) (canBeArrow async : Bool) :
    Moves (g.parenthesized outer canBeArrow async) := by
  obtain ⟨rest, hrest, heq⟩ := exists_parenthesized hg outer canBeArrow async
  rw [heq]
  refine moves_bind_right takes_start fun opening => ?_
  exact moves_bind_left (takes_expectSign _) (moves_expectSign _) fun _ => hrest opening

theorem moves_nameOrArrow (canBeArrow : Bool) : Moves (g.nameOrArrow canBeArrow) := by
  unfold nameOrArrow
  refine moves_bind_right takes_token fun t => ?_
  cases wordOf t with
  | none => exact moves_unexpected
  | some w => exact moves_ite_bind takes_unexpected (moves_bump_bind fun _ => by grind)

theorem moves_templatePieces (start : Nat) (tagged : Bool) (fuel : Nat) :
    Moves (g.templatePieces start tagged fuel) := by
  cases fuel with
  | zero => exact moves_unexpected
  | succ fuel =>
    unfold templatePieces
    refine moves_get_bind fun script s a t hs h => ?_
    dsimp only at h
    have hrest : Takes (do
        if (readTemplate s.token.stop s.rest).ending = .substitution then
          g.innerExpression
          if ← isSign "\x7d" then g.templatePieces start tagged fuel else unexpected) := by
      grind
    by_cases hopen : (readTemplate s.token.stop s.rest).ending = .unclosed
    · rw [if_pos hopen] at h
      cases h
    · rw [if_neg hopen] at h
      cases hrefused : (readTemplate s.token.stop s.rest).refused? with
      | none =>
        rw [hrefused] at h
        exact start_le_of_moved hs .template hrest h
      | some offset =>
        rw [hrefused] at h
        cases tagged with
        | false => cases h
        | true => exact start_le_of_moved hs .template hrest h

theorem moves_template (tagged : Bool) : Moves (g.template tagged) :=
  moves_bind_right takes_start fun _ => moves_templatePieces hg _ _ _

theorem moves_primary : Moves g.primary := by
  unfold primary
  refine moves_token_bind fun script s a t hs h => ?_
  have hplain {f : Reading → Reader Expr} (hf : ∀ s, Moves (f s)) (h : (get >>= f) s = .ok a t) :
      s.token.start ≤ t.lastStop := moves_bind_right takes_get hf script s a t hs h
  dsimp only at h
  split at h
  · exact hplain (fun _ => moves_rigidly takes_bump moves_bump) h
  · exact hplain (fun _ => moves_rigidly takes_bump moves_bump) h
  · exact hplain (fun _ => moves_array hg) h
  · exact hplain (fun _ => moves_object hg) h
  · exact hplain (fun _ => moves_parenthesized hg _ _ _) h
  · exact hplain (fun _ => moves_rigidly (takes_template hg _) (moves_template hg _)) h
  · next hsign => exact start_le_of_regularExpression hs (.inl hsign) h
  · next hsign => exact start_le_of_regularExpression hs (.inr hsign) h
  · refine hplain (fun _ => moves_rigidly (by grind) ?_) h
    exact moves_bind_left takes_privateName moves_privateName fun _ => takes_pure _
  · exact hplain (fun _ => moves_rigidly (by grind) (moves_bump_bind fun _ => by grind)) h
  · exact hplain (fun _ => moves_rigidly (by grind) (moves_bump_bind fun _ => by grind)) h
  · refine hplain (fun s => ?_) h
    split
    · exact moves_rigidly takes_bump moves_bump
    refine moves_bind_right takes_asyncFunctionNext fun async => ?_
    split
    · exact moves_rigidly (by grind) (moves_bump_bind fun _ => by grind)
    split
    · refine moves_bind_right takes_peek fun next => ?_
      split
      · exact moves_bump_bind fun _ => by grind
      · exact moves_nameOrArrow hg _
    · exact moves_nameOrArrow hg _
  · exact hplain (fun _ => moves_nameOrArrow hg _) h
  · exact hplain (fun _ => moves_unexpected) h

theorem moves_ofSuper (calls : Bool) : Moves (g.ofSuper calls) := by
  refine moves_bind_right takes_start fun s => moves_bump_bind fun _ => ?_
  exact takes_bind takes_setting fun around => by grind

theorem moves_ofImport (calls : Bool) : Moves (g.ofImport calls) :=
  moves_bind_right takes_start fun s => moves_bump_bind fun _ => by grind

theorem moves_operandWith (calls : Bool) : Moves (g.operandWith calls) := by
  unfold operandWith
  refine moves_bind_right takes_start fun s => moves_bind_right (takes_isWord _) fun isNew => ?_
  split
  · refine moves_bump_bind fun _ => takes_bind (takes_eatSign _) fun point => ?_
    split
    · grind
    · exact takes_bind hg.constructed fun callee => by grind
  refine moves_bind_right (takes_isWord _) fun isSuper => ?_
  split
  · exact moves_ofSuper hg calls
  refine moves_bind_right (takes_isWord _) fun isImport => ?_
  split
  · exact moves_ofImport hg calls
  · exact moves_bind_left (takes_primary hg) (moves_primary hg) fun e =>
      takes_withFollowing hg calls e

theorem moves_operand : Moves g.operand := moves_operandWith hg true

theorem moves_awaited : Moves g.awaited := by
  refine moves_bind_right takes_start fun s => moves_bind_right takes_setting fun around => ?_
  refine moves_bump_bind fun _ => takes_bind (takes_isSign _) fun star => ?_
  grind

theorem moves_unaryExpression : Moves g.unaryExpression := by
  unfold unaryExpression
  refine moves_bind_right takes_token fun t => ?_
  dsimp only
  split
  case h_10 => exact moves_awaited hg
  case h_11 => exact moves_bind_left (takes_operand hg) (moves_operand hg) fun e => by grind
  all_goals exact moves_bump_bind fun _ => by grind

theorem moves_yielded : Moves g.yielded :=
  moves_bind_right takes_start fun s => moves_bump_bind fun _ => by grind

/-- Operators of a higher precedence than `least` are moved over. -/
theorem start_le_of_binaryTail {script : List Char} {s t : Reading} (hs : s.Sound script) {p : Nat}
    (hp : s.token.precedence? s.setting.allowIn = some p) {least fuel : Nat} (hleast : least < p)
    {left e : Expr} (h : g.binaryTail fuel least left s = .ok e t) : s.token.start ≤ t.lastStop := by
  cases fuel with
  | zero => cases h
  | succ fuel =>
    unfold binaryTail at h
    obtain ⟨token, u, htoken, h⟩ := bind_eq_ok h
    cases htoken
    obtain ⟨setting, u, hsetting, h⟩ := bind_eq_ok h
    cases hsetting
    rw [hp] at h
    dsimp only at h
    rw [if_neg (Nat.not_le.2 hleast)] at h
    exact moves_bump_bind (fun _ => by grind) script s e t hs h

omit hg in
/-- An operand of an operator is moved over, or it is missing before another operator. -/
theorem operatorOperand_cases (hunary : Moves g.unary) {script : List Char} {s t : Reading}
    (hs : s.Sound script) {e : Expr} (h : g.operatorOperand s = .ok e t) :
    s.token.start ≤ t.lastStop ∨
      (∃ p, t.token.precedence? t.setting.allowIn = some p) ∧ e.form = .other := by
  obtain ⟨n, u, hstart, h⟩ := bind_eq_ok h
  cases hstart
  rcases tryCatch_eq_ok h with h | ⟨offset, u, -, h⟩
  · exact .inl (hunary script s e t hs h)
  · obtain ⟨st, v, hget, h⟩ := bind_eq_ok h
    cases hget
    cases hp : u.token.precedence? u.setting.allowIn with
    | none =>
      rw [hp] at h
      cases h
    | some p =>
      rw [hp] at h
      cases h
      exact .inr ⟨⟨p, hp⟩, rfl⟩

/-- Behind an operand that is missing before another operator, that operator is moved over. -/
theorem moves_binary (hunary : Moves g.unary) : Moves g.binary := by
  intro script s e t hs h
  obtain ⟨left, u, hleft, h⟩ := bind_eq_ok h
  obtain ⟨hu, hafter⟩ := (takes_operatorOperand hg).sound hs hleft
  rcases operatorOperand_cases hunary hs hleft with hmoved | ⟨⟨p, hp⟩, hform⟩
  · have hrest : Takes (do
        if left.form = .arrow then return left
        g.binaryTail g.fuel 0 left) := by
      grind
    exact Nat.le_trans hmoved (hrest.sound hu h).2.lastStop
  · rw [if_neg (by simp [hform])] at h
    exact Nat.le_trans hafter.start (start_le_of_binaryTail hg hu hp (precedence?_pos hp) h)

theorem moves_conditional (hunary : Moves g.unary) : Moves g.conditional :=
  moves_bind_left (takes_binary hg) (moves_binary hg hunary) fun e => by grind

theorem moves_assignmentExpression (hunary : Moves g.unary) : Moves g.assignmentExpression := by
  unfold assignmentExpression
  refine moves_bind_right takes_start fun s => moves_bind_right takes_setting fun around =>
    moves_bind_right (takes_isWord _) fun yields => ?_
  split
  · exact moves_yielded hg
  · refine moves_bind_right (takes_modify fun st => .marked st (some s)) fun _ => ?_
    exact moves_bind_left (takes_conditional hg) (moves_conditional hg hunary) fun e => by grind

/-! ### Statements -/

section Statements

variable (hassignment : Moves g.assignment)

include hassignment

/-- A value takes one token at least. -/
theorem moves_assignedValue : Moves g.assignedValue :=
  moves_bind_left (takes_within _ hg.assignment) (moves_within _ hg.assignment hassignment)
    takes_useValue

theorem moves_expression : Moves g.expression :=
  moves_bind_left hg.assignment hassignment fun e => takes_sequenceTail hg _ e

theorem moves_innerExpression : Moves g.innerExpression :=
  moves_bind_left (takes_within _ (takes_expression hg))
    (moves_within _ (takes_expression hg) (moves_expression hg hassignment)) takes_useValue

theorem moves_expressionStatement : Moves g.expressionStatement := by
  unfold expressionStatement
  refine moves_bind_left (takes_within _ (takes_expression hg))
    (moves_within _ (takes_expression hg) (moves_expression hg hassignment)) fun e => ?_
  dsimp only
  split
  · grind
  · grind

omit hassignment in
theorem moves_ifStatement : Moves g.ifStatement := by
  refine moves_bump_bind fun _ => takes_bind (takes_expectSign _) fun _ => ?_
  exact takes_bind (takes_innerExpression hg) fun _ => by grind

omit hassignment in
theorem moves_forStatement : Moves g.forStatement := moves_bump_bind fun _ => by grind

omit hassignment in
theorem moves_returnStatement : Moves g.returnStatement :=
  moves_bind_right takes_start fun s => moves_bump_bind fun _ => by grind

omit hassignment hg in
theorem moves_jump : Moves jump :=
  moves_bind_right takes_token fun s => moves_bump_bind fun _ => by grind

omit hassignment hg in
theorem start_le_of_eatWord {script : List Char} {s t : Reading} (hs : s.Sound script) {w : String}
    (hw : s.token.lexeme = .word w false) {found : Bool} (h : eatWord w s = .ok found t) :
    s.token.start ≤ t.lastStop := by
  obtain ⟨asked, u, hask, h⟩ := bind_eq_ok h
  cases hask
  rw [if_pos (decide_eq_true hw)] at h
  exact moves_bump_bind (fun _ => takes_pure _) script s found t hs h

omit hassignment in
theorem start_le_of_catchClause {script : List Char} {s t : Reading} (hs : s.Sound script)
    (hw : s.token.lexeme = .word "catch" false) {caught : Bool}
    (h : g.catchClause s = .ok caught t) : s.token.start ≤ t.lastStop := by
  obtain ⟨found, u, hfound, h⟩ := bind_eq_ok h
  obtain ⟨hu, -⟩ := (takes_eatWord _).sound hs hfound
  have hrest : Takes (do
      if found then
        if ← eatSign "(" then
          let _ ← g.pattern
          expectSign ")"
        g.block
        return true
      else return false : Reader Bool) := by
    grind
  exact Nat.le_trans (start_le_of_eatWord hs hw hfound) (hrest.sound hu h).2.lastStop

omit hassignment in
theorem start_le_of_finallyClause {script : List Char} {s t : Reading} (hs : s.Sound script)
    (hw : s.token.lexeme = .word "finally" false) {found : Bool}
    (h : g.finallyClause s = .ok found t) : s.token.start ≤ t.lastStop := by
  obtain ⟨found, u, hfound, h⟩ := bind_eq_ok h
  obtain ⟨hu, -⟩ := (takes_eatWord _).sound hs hfound
  have hrest : Takes (do
      if found then
        g.block
        return true
      else return false : Reader Bool) := by
    grind
  exact Nat.le_trans (start_le_of_eatWord hs hw hfound) (hrest.sound hu h).2.lastStop

omit hassignment hg in
/-- A problem that is noted leaves the current token as it is. -/
theorem noted_eq_ok {α : Type} {k : Unit → Reader α} {s t : Reading} {a : α}
    (h : (start >>= fun n => note n >>= k) s = .ok a t) :
    ∃ u, Step s u ∧ u.token = s.token ∧ k () u = .ok a t := by
  obtain ⟨n, u, hstart, h⟩ := bind_eq_ok h
  cases hstart
  obtain ⟨_, u, hnote, h⟩ := bind_eq_ok h
  cases hnote
  exact ⟨_, .noted s (s.problems ++ [s.token.start]), rfl, h⟩

omit hassignment in
/-- A handler without its block takes one token at least. -/
theorem start_le_of_handler {script : List Char} {s t : Reading} (hs : s.Sound script) {w : String}
    (hw : s.token.lexeme = .word w false) (hhandler : w = "catch" ∨ w = "finally")
    {declarations : Bool} {names : Option (List Name)}
    (h : g.keywordStatement declarations w s = .ok names t) : s.token.start ≤ t.lastStop := by
  rcases hhandler with rfl | rfl
  · obtain ⟨_, v, h, hnames⟩ := bind_eq_ok h
    cases hnames
    obtain ⟨u, hstep, htoken, h⟩ := noted_eq_ok h
    obtain ⟨caught, v, hcatch, h⟩ := bind_eq_ok h
    have hu := (hstep.sound hs).1
    have hv := ((takes_catchClause hg).sound hu hcatch).1
    have hrest : Takes (do let _ ← g.finallyClause : Reader Unit) := by
      grind
    rw [← htoken] at hw ⊢
    exact Nat.le_trans (start_le_of_catchClause hg hu hw hcatch) (hrest.sound hv h).2.lastStop
  · obtain ⟨_, v, h, hnames⟩ := bind_eq_ok h
    cases hnames
    obtain ⟨u, hstep, htoken, h⟩ := noted_eq_ok h
    obtain ⟨finished, v, hfinally, h⟩ := bind_eq_ok h
    cases h
    rw [← htoken] at hw ⊢
    exact start_le_of_finallyClause hg (hstep.sound hs).1 hw hfinally

/-- A statement that a word starts takes one token at least, if the word is not that of a handler
without its block. -/
theorem movesIfFound_keywordStatement (declarations : Bool) {w : String} (hcatch : w ≠ "catch")
    (hfinally : w ≠ "finally") : MovesIfFound (g.keywordStatement declarations w) := by
  have hplain {p : Reader Unit} (hp : Takes p) (hmoves : Moves p) :
      MovesIfFound (do p; return some [] : Reader (Option (List Name))) :=
    (moves_bind_left hp hmoves fun _ => takes_pure _).ifFound
  have hsome {α : Type} {f : α → Option (List Name)} {p : Reader α} (hp : Takes p)
      (hmoves : Moves p) : MovesIfFound (f <$> p) := (moves_map hp hmoves).ifFound
  unfold keywordStatement
  dsimp only
  split
  · exact hplain (takes_ifStatement hg) (moves_ifStatement hg)
  · exact hplain (takes_forStatement hg) (moves_forStatement hg)
  · exact hplain (by grind) (moves_bump_bind fun _ => by grind)
  · exact hplain (by grind) (moves_bump_bind fun _ => by grind)
  · refine hplain (by grind) (moves_bind_right takes_start fun s => ?_)
    exact moves_bind_right (takes_note s) fun _ => moves_bump_bind fun _ => by grind
  · exact hplain (takes_switchStatement hg) (moves_bump_bind fun _ => by grind)
  · exact hplain (takes_tryStatement hg) (moves_bump_bind fun _ => by grind)
  · exact absurd rfl hcatch
  · exact absurd rfl hfinally
  · exact hplain (takes_returnStatement hg) (moves_returnStatement hg)
  · exact hplain (takes_throwStatement hg) (moves_bump_bind fun _ => by grind)
  · exact hplain takes_jump moves_jump
  · exact hplain takes_jump moves_jump
  · exact hplain (by grind) (moves_bump_bind fun _ => by grind)
  · exact hsome (takes_variableStatement hg) (moves_variableStatement hg)
  · split
    · exact hsome (takes_variableStatement hg) (moves_variableStatement hg)
    · exact movesIfFound_none
  · refine movesIfFound_bind takes_letDeclares fun declares => ?_
    split
    · exact hsome (takes_variableStatement hg) (moves_variableStatement hg)
    · exact movesIfFound_none
  · have hrest : Moves (do return some (← g.functionDeclaration true false).toList) :=
      moves_bind_left (takes_functionDeclaration hg _ _) (moves_functionDeclaration hg _ _)
        fun _ => takes_pure _
    split
    · exact hrest.ifFound
    · exact (moves_bind_right takes_start fun s =>
        moves_bind_right (takes_note s) fun _ => hrest).ifFound
  · have hrest : Moves (do return some (← g.classDeclaration true).toList) :=
      moves_bind_left (takes_classDeclaration hg _) (moves_classDeclaration hg _)
        fun _ => takes_pure _
    split
    · exact hrest.ifFound
    · exact (moves_bind_right takes_start fun s =>
        moves_bind_right (takes_note s) fun _ => hrest).ifFound
  · refine movesIfFound_bind takes_asyncFunctionNext fun isAsync => ?_
    split
    · exact (moves_bump_bind fun _ => by grind).ifFound
    · exact movesIfFound_none
  · refine movesIfFound_bind takes_peek fun next => ?_
    split
    · refine hplain (by grind) ?_
      exact moves_bind_left (takes_innerExpression hg) (moves_innerExpression hg hassignment)
        fun _ => by grind
    · exact moves_unexpected.ifFound
  · exact moves_unexpected.ifFound
  · exact movesIfFound_none

/-- A statement takes one token at least. -/
theorem moves_statementOrDeclaration (declarations : Bool) :
    Moves (g.statementOrDeclaration declarations) := by
  unfold statementOrDeclaration
  refine moves_token_bind fun script s names t hs h => ?_
  generalize hlexeme : s.token.lexeme = lexeme at h
  split at h
  · refine moves_bind_left (takes_block hg) ?_ (fun _ => takes_pure _) script s names t hs h
    exact moves_bind_left (takes_expectSign _) (moves_expectSign _) fun _ => takes_blockItems hg
  · exact moves_bump_bind (fun _ => takes_pure _) script s names t hs h
  · next w =>
    obtain ⟨found, u, hfound, h⟩ := bind_eq_ok h
    obtain ⟨hu, hafter⟩ := (takes_keywordStatement hg declarations w).sound hs hfound
    cases found with
    | none =>
      have hrest := moves_expressionStatement hg hassignment script u names t hu h
      exact Nat.le_trans hafter.start hrest
    | some found =>
      cases h
      by_cases hhandler : w = "catch" ∨ w = "finally"
      · exact start_le_of_handler hg hs hlexeme hhandler hfound
      · obtain ⟨hcatch, hfinally⟩ := not_or.1 hhandler
        exact movesIfFound_keywordStatement hg hassignment declarations hcatch hfinally
          script s names t hs hfound
  · exact moves_expressionStatement hg hassignment script s names t hs h

end Statements

end Parts

theorem moves_unary_grammar (fuel depth : Nat) : Moves (grammar fuel depth).unary := by
  cases depth with
  | zero => exact moves_unexpected
  | succ depth => exact moves_unaryExpression (takesParts_grammar fuel depth)

theorem moves_assignment_grammar (fuel depth : Nat) : Moves (grammar fuel depth).assignment := by
  cases depth with
  | zero => exact moves_unexpected
  | succ depth =>
    exact moves_assignmentExpression (takesParts_grammar fuel depth) (moves_unary_grammar fuel depth)

theorem moves_statement_grammar (fuel depth : Nat) (declarations : Bool) :
    Moves ((grammar fuel depth).statement declarations) := by
  cases depth with
  | zero => exact moves_unexpected
  | succ depth =>
    exact moves_statementOrDeclaration (takesParts_grammar fuel depth)
      (moves_assignment_grammar fuel depth) declarations

end Grammar

end SingleFile.Script
