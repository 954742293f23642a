import SingleFile.Proofs.Script.AcceptedStatements

/-!
# Functions that are accepted

Functions with names as parameters, and the expressions and statements around them: variables with a
value, values that are given back, conditions with two outcomes, arrays and calls.  The body of a
function is a row of statements (`reads_primary_function`).
-/

namespace SingleFile.Script.Grammar

open Reader

variable {g : Grammar} {st : Setting} {ts ts' ts'' ts₃ : List Seen} {l l' : Lexeme}
  {b b₀ b₁ b' b'' : Bool} {P Q : Expr → Prop} {fuel depth n : Nat} {w : String} {names : List String} {declarations : Bool}

/-! ### Parameters -/

theorem IsVariable.ne_plain {v : String} (h : IsVariable w)
    (hv : v ∈ ["let", "static", "eval", "arguments", "async"]) : w ≠ v := by
  rintro rfl
  exact h.2 hv

theorem reads_bindingName (hw : IsVariable w) :
    Reads st bindingName ((.word w false, b) :: (l', b') :: ts) ((l', b') :: ts) fun _ => True := by
  have hstrict : (strictWords.contains w || w = "eval" || w = "arguments") = false := by
    simp [strictWords, hw.ne_plain]
  refine reads_token.bind fun t ht => ?_
  simp only [ht.1, hw.1, hstrict, if_false, Bool.false_eq_true]
  exact reads_bump.bind fun _ _ => reads_pure trivial

theorem reads_bindingPattern (hw : IsVariable w) :
    Reads st g.bindingPattern ((.word w false, b) :: (l', b') :: ts) ((l', b') :: ts)
      fun _ => True := by
  unfold bindingPattern
  refine reads_token.bind fun t ht => ?_
  simp only [ht.1]
  exact (reads_bindingName hw).bind fun _ _ => reads_pure trivial

def nameTokens : List String → List Seen
  | [] => []
  | [w] => [(.word w false, false)]
  | w :: v :: rest => (.word w false, false) :: (.sign ",", false) :: nameTokens (v :: rest)

theorem exists_nameTokens_cons (w : String) (names : List String) :
    ∃ more, nameTokens (w :: names) = (.word w false, false) :: more := by
  cases names <;> exact ⟨_, rfl⟩

theorem exists_nameTokens_append (names : List String) (l : Lexeme) (ts : List Seen) :
    ∃ l' more, nameTokens names ++ (l, false) :: ts = (l', false) :: more := by
  cases names with
  | nil => exact ⟨_, _, rfl⟩
  | cons w names =>
    obtain ⟨more, hmore⟩ := exists_nameTokens_cons w names
    exact ⟨_, _, by rw [hmore]; rfl⟩

theorem reads_commaList {α : Type} {part : Reader α} {close : String} (hfuel : names.length < fuel)
    (hclose : close ≠ ",")
    (h : ∀ w ∈ names, ∀ s ∈ [",", close], ∀ ts, Reads st part
      ((.word w false, false) :: (.sign s, false) :: ts) ((.sign s, false) :: ts) fun _ => True) :
    Reads st (commaList close part fuel) (nameTokens names ++ (.sign close, false) :: ts)
      ((.sign close, false) :: ts) fun _ => True := by
  induction names generalizing fuel with
  | nil =>
    obtain ⟨fuel, rfl⟩ := Nat.exists_eq_add_one.2 (Nat.zero_lt_of_lt hfuel)
    exact reads_isSign.ite_true (reads_pure trivial)
  | cons w names ih =>
    obtain ⟨fuel, rfl⟩ := Nat.exists_eq_add_one.2 (Nat.zero_lt_of_lt hfuel)
    have hw := h w List.mem_cons_self
    cases names with
    | nil =>
      refine (reads_isSign_other (by simp)).ite_false ((hw close (by simp) ts).bind fun _ _ => ?_)
      exact reads_isSign.ite_true (reads_pure trivial)
    | cons v names =>
      have hrest := ih (Nat.lt_of_succ_lt_succ hfuel) fun w' hw' => h w' (List.mem_cons_of_mem w hw')
      obtain ⟨more, hmore⟩ := exists_nameTokens_cons v names
      rw [hmore] at hrest
      rw [nameTokens, hmore]
      refine (reads_isSign_other (by simp)).ite_false ((hw "," (by simp) _).bind fun _ _ => ?_)
      refine (reads_isSign_other (by simpa using hclose.symm)).ite_false ?_
      exact reads_expectSign.bind fun _ _ => hrest.bind fun _ _ => reads_pure trivial

theorem reads_parameters (hfuel : names.length < g.fuel) (hnames : ∀ w ∈ names, IsVariable w)
    (hpattern : ∀ st w l b ts, IsVariable w → Reads st g.pattern
      ((.word w false, false) :: (l, b) :: ts) ((l, b) :: ts) fun _ => True) :
    Reads st g.parameters (nameTokens names ++ (.sign ")", false) :: (l, b) :: ts) ((l, b) :: ts)
      fun _ => True := by
  refine (reads_commaList hfuel (by decide) fun w hw s hs ts => ?_).bind fun _ _ =>
    reads_expectSign.bind fun _ _ => reads_pure trivial
  have hequals : Lexeme.sign s ≠ .sign "=" := by
    simp only [List.mem_cons, List.not_mem_nil, or_false] at hs
    rcases hs with rfl | rfl <;> decide
  have helement : Reads st g.boundElement ((.word w false, false) :: (.sign s, false) :: ts)
      ((.sign s, false) :: ts) fun _ => True :=
    (hpattern _ _ _ _ _ (hnames w hw)).bind fun _ _ =>
      (reads_eatSign_other hequals).ite_false (reads_pure trivial)
  refine reads_start.bind fun _ _ => (reads_eatSign_other (by simp)).ite_false ?_
  refine reads_token.bind fun _ _ => reads_token.bind fun _ _ => helement.bind fun _ _ => ?_
  exact reads_lastStop.bind fun _ _ => reads_pure trivial

/-! ### Bodies -/

theorem reads_directive (hl : ∀ raw, l ≠ .string raw) :
    Reads st directive? ((l, b) :: ts) ((l, b) :: ts) (· = none) := by
  refine reads_token.bind fun t ht => ?_
  split
  · next raw heq => exact absurd (ht.1.symm.trans heq) (hl raw)
  · exact reads_pure rfl

theorem reads_functionBody {simple : Bool} (hfuel : n < g.fuel) (hl : ∀ raw, l ≠ .string raw)
    (h : ReadsStatements g st n ((l, b) :: ts) ((.sign "\x7d", b₁) :: (l', b') :: ts')) :
    Reads st (g.functionBody simple) ((.sign "\x7b", b₀) :: (l, b) :: ts) ((l', b') :: ts')
      fun _ => True := by
  refine reads_expectSign.bind fun _ _ => ?_
  refine (reads_many_none (Nat.zero_lt_of_lt hfuel) ?_).bind fun strict hstrict => ?_
  · refine (reads_directive hl).bind fun a ha => ?_
    rw [ha]
    exact reads_pure rfl
  · refine (reads_blockItems hfuel h).bind fun _ _ => ?_
    rw [hstrict]
    cases simple <;> exact reads_pure trivial

/-- A function after its name. -/
theorem reads_functionRest (hfuel : names.length < g.fuel) (hbody : n < g.fuel)
    (hnames : ∀ w ∈ names, IsVariable w)
    (hpattern : ∀ st w l b ts, IsVariable w → Reads st g.pattern
      ((.word w false, false) :: (l, b) :: ts) ((l, b) :: ts) fun _ => True)
    (hl : ∀ raw, l ≠ .string raw)
    (h : ReadsStatements g (ownSetting false false false st) n ((l, b) :: ts)
      ((.sign "\x7d", b₁) :: (l', b') :: ts')) :
    Reads st (g.functionRest false false false)
      ((.sign "(", b₀) :: (nameTokens names ++ (.sign ")", false) :: (.sign "\x7b", false) ::
        (l, b) :: ts)) ((l', b') :: ts') fun _ => True := by
  obtain ⟨l₀, more, hmore⟩ :=
    exists_nameTokens_append names (.sign ")") ((.sign "\x7b", false) :: (l, b) :: ts)
  have hparameters (st : Setting) : Reads st g.parameters (nameTokens names ++ (.sign ")", false) ::
      (.sign "\x7b", false) :: (l, b) :: ts) ((.sign "\x7b", false) :: (l, b) :: ts) fun _ => True :=
    reads_parameters hfuel hnames hpattern
  rw [hmore] at hparameters ⊢
  refine reads_within ?_
  refine reads_expectSign.bind fun _ _ => (reads_within (hparameters _)).bind fun _ _ => ?_
  exact (reads_pure (Q := fun _ => True) trivial).bind fun _ _ => reads_functionBody hbody hl h

/-! ### Functions -/

theorem reads_functionExpression
    (hname : Reads { st with inGenerator := false, inAsync := false }
      (do if !(← isSign "(") then let _ ← bindingName) ((l, b) :: ts) ts' fun _ => True)
    (hl : l ≠ .sign "*") (h : Reads st (g.functionRest false false false) ts' ts'' fun _ => True) :
    Reads st (g.functionExpression false) ((l, b) :: ts) ts'' fun _ => True := by
  refine (reads_eatSign_other hl).bind fun generator hgenerator => ?_
  rw [hgenerator]
  exact (reads_within hname).bind fun _ _ => h

theorem reads_functionExpression_anonymous
    (h : Reads st (g.functionRest false false false) ((.sign "(", b) :: ts) ts' fun _ => True) :
    Reads st (g.functionExpression false) ((.sign "(", b) :: ts) ts' fun _ => True := by
  refine reads_functionExpression ?_ (by decide) h
  refine reads_isSign.bind fun a ha => ?_
  rw [ha]
  exact reads_pure trivial

theorem reads_functionExpression_named (hw : IsVariable w)
    (h : Reads st (g.functionRest false false false) ((.sign "(", b) :: ts) ts' fun _ => True) :
    Reads st (g.functionExpression false) ((.word w false, b₀) :: (.sign "(", b) :: ts) ts'
      fun _ => True := by
  refine reads_functionExpression ?_ (by simp) h
  refine (reads_isSign_other (by simp)).bind fun a ha => ?_
  rw [ha]
  exact (reads_bindingName hw).bind fun _ _ => reads_pure trivial

theorem reads_primary_function
    (h : Reads st (g.functionExpression false) ((l, b) :: ts) ts' fun _ => True) :
    Reads st g.primary ((.word "function" false, b₀) :: (l, b) :: ts) ts' fun e => e.Is .other := by
  unfold primary
  refine reads_token.bind fun t ht => reads_get.bind fun r _ => ?_
  simp only [ht.1]
  exact reads_rigidly (reads_bump.bind fun _ _ => h)

/-! ### Parentheses -/

/-- An expression in parentheses, behind which no arrow stands. -/
theorem reads_parenthesized {outer : Nat} {canBeArrow : Bool} (hfuel : 0 < g.fuel)
    (hclose : l ≠ .sign ")") (hspread : l ≠ .sign "...") (hl' : l' ≠ .sign "=>")
    (h : Reads { st with allowIn := true } g.assignment ((l, b) :: ts)
      ((.sign ")", b₁) :: (l', b') :: ts') fun e => e.value = none) :
    Reads st (g.parenthesized outer canBeArrow false) ((.sign "(", b₀) :: (l, b) :: ts)
      ((l', b') :: ts') fun e => e.Is .paren := by
  obtain ⟨fuel, hg⟩ : ∃ fuel, g.fuel = fuel + 1 := Nat.exists_eq_add_one.2 hfuel
  unfold parenthesized
  refine reads_start.bind fun _ _ => reads_expectSign.bind fun _ _ => ?_
  rw [hg]
  refine (reads_within (reads_argumentParts_one hclose hspread h)).bind fun r hr => ?_
  obtain ⟨e, rfl, he⟩ := hr
  refine (reads_isSign_other hl').ite_false ?_
  refine reads_pure ⟨rfl, ?_⟩
  show [(⟨e, false⟩ : Part)].findSome? (·.expr.value) = none
  simp [he]

theorem reads_primary_paren
    (h : ∀ outer canBeArrow, Reads st (g.parenthesized outer canBeArrow false)
      ((.sign "(", b) :: ts) ts' Q) : Reads st g.primary ((.sign "(", b) :: ts) ts' Q := by
  unfold primary
  refine reads_token.bind fun t ht => reads_get.bind fun r _ => ?_
  simp only [ht.1]
  exact h _ _

/-! ### Arrays and calls -/

theorem reads_array_nil (hfuel : 0 < g.fuel) :
    Reads st g.array ((.sign "[", b) :: (.sign "]", b') :: (l', b'') :: ts) ((l', b'') :: ts)
      fun e => e.Is .array := by
  obtain ⟨fuel, hg⟩ : ∃ fuel, g.fuel = fuel + 1 := Nat.exists_eq_add_one.2 hfuel
  have helements (st : Setting) : Reads st (g.elements g.fuel)
      ((.sign "]", b') :: (l', b'') :: ts) ((l', b'') :: ts) (· = ([], none)) := by
    rw [hg]
    exact reads_eatSign.ite_true (reads_pure rfl)
  refine reads_start.bind fun _ _ => reads_expectSign.bind fun _ _ => ?_
  refine (reads_within (helements _)).bind fun r hr => ?_
  rw [hr]
  exact reads_pure ⟨rfl, rfl⟩

theorem reads_array_one (hfuel : 0 < g.fuel) (hclose : l ≠ .sign "]") (hcomma : l ≠ .sign ",")
    (hspread : l ≠ .sign "...") (h : Reads { st with allowIn := true } g.assignment
      ((l, b) :: ts) ((.sign "]", b₁) :: (l', b') :: ts') fun e => e.value = none) :
    Reads st g.array ((.sign "[", b₀) :: (l, b) :: ts) ((l', b') :: ts') fun e => e.Is .array := by
  obtain ⟨fuel, hg⟩ : ∃ fuel, g.fuel = fuel + 1 := Nat.exists_eq_add_one.2 hfuel
  have helements : Reads { st with allowIn := true } (g.elements g.fuel) ((l, b) :: ts)
      ((l', b') :: ts') fun r => ∃ e, r = ([some ⟨e, false⟩], none) ∧ e.value = none := by
    rw [hg, elements]
    refine (reads_eatSign_other hclose).ite_false ((reads_eatSign_other hcomma).ite_false ?_)
    refine reads_argument hspread h fun e he => ?_
    exact reads_eatSign.ite_true (reads_pure ⟨e, rfl, he⟩)
  refine reads_start.bind fun _ _ => reads_expectSign.bind fun _ _ => ?_
  refine (reads_within helements).bind fun r hr => ?_
  obtain ⟨e, rfl, he⟩ := hr
  refine reads_pure ⟨rfl, ?_⟩
  show ([some ⟨e, false⟩].filterMap fun p : Option Part => p.map (·.expr)).findSome? (·.value) = none
  simp [he]

theorem reads_primary_array (h : Reads st g.array ((.sign "[", b) :: ts) ts' Q) :
    Reads st g.primary ((.sign "[", b) :: ts) ts' Q := by
  unfold primary
  refine reads_token.bind fun t ht => reads_get.bind fun r _ => ?_
  simp only [ht.1]
  exact h

/-! ### Conditions -/

/-- A condition with its two outcomes. -/
theorem reads_conditional_choice
    (hcondition : Reads st g.binary ts ((.sign "?", b) :: (l, b₀) :: ts') fun e => ∃ w, e.Is (.name w))
    (hyes : Reads { st with allowIn := true } g.assignment ((l, b₀) :: ts')
      ((.sign ":", b₁) :: (l', b') :: ts'') fun e => e.value = none)
    (hno : Reads st g.assignment ((l', b') :: ts'') ts₃ fun e => e.value = none) :
    Reads st g.conditional ts ts₃ fun e => e.Is .compound := by
  refine hcondition.bind fun e he => ?_
  obtain ⟨w, he⟩ := he
  rw [he.form, if_neg (by simp)]
  refine reads_eatSign.ite_true ((reads_within hyes).bind fun yes hyes => ?_)
  refine reads_expectSign.bind fun _ _ => hno.bind fun no hno => reads_pure ⟨rfl, ?_⟩
  simp [Expr.rigid, he.value, hyes, hno]

/-! ### Statements -/

/-- No semicolon is needed at the end. -/
theorem reads_eatSemicolon_finish :
    Reads st eatSemicolon ((.finish, b) :: ts) ((.finish, b) :: ts) (· = true) := by
  refine reads_token.bind fun t ht => ?_
  simp only [ht.1]
  exact reads_pure rfl

theorem reads_eatSemicolon_other (hsign : ∀ s, l ≠ .sign s) (hfinish : l ≠ .finish) :
    Reads st eatSemicolon ((l, false) :: ts) ((l, false) :: ts) (· = false) := by
  refine reads_token.bind fun t ht => ?_
  split
  · next heq => exact absurd (ht.1.symm.trans heq) (hsign _)
  · next heq => exact absurd (ht.1.symm.trans heq) (hsign _)
  · next heq => exact absurd (ht.1.symm.trans heq) hfinish
  · exact reads_pure ht.2

theorem reads_statement_empty :
    Reads st (g.statementOrDeclaration declarations) ((.sign ";", b) :: (l', b') :: ts)
      ((l', b') :: ts) fun _ => True := by
  unfold statementOrDeclaration
  refine reads_token.bind fun t ht => ?_
  simp only [ht.1]
  exact reads_bump.bind fun _ _ => reads_pure trivial

theorem reads_statement_paren
    (h : Reads st g.expressionStatement ((.sign "(", b) :: ts) ts' fun _ => True) :
    Reads st (g.statementOrDeclaration declarations) ((.sign "(", b) :: ts) ts' fun _ => True := by
  unfold statementOrDeclaration
  refine reads_token.bind fun t ht => ?_
  simp only [ht.1]
  exact h

/-- A variable with a value. -/
theorem reads_statement_var (hfuel : 0 < g.fuel) (hw : IsVariable w)
    (hpattern : ∀ st w l b ts, IsVariable w → Reads st g.pattern
      ((.word w false, false) :: (l, b) :: ts) ((l, b) :: ts) fun _ => True)
    (hl' : l' ≠ .sign ",") (hend : Reads st eatSemicolon ((l', b') :: ts') ts'' (· = true))
    (h : Reads { st with allowIn := true } g.assignment ((l, b) :: ts) ((l', b') :: ts')
      fun e => e.value = none) :
    Reads st (g.statementOrDeclaration declarations) ((.word "var" false, b₀) ::
      (.word w false, false) :: (.sign "=", b₁) :: (l, b) :: ts) ts'' fun _ => True := by
  obtain ⟨fuel, hg⟩ : ∃ fuel, g.fuel = fuel + 1 := Nat.exists_eq_add_one.2 hfuel
  have hone (constant : Bool) : Reads { st with allowIn := true } (g.variableOne constant false)
      ((.word w false, false) :: (.sign "=", b₁) :: (l, b) :: ts) ((l', b') :: ts') fun _ => True := by
    refine reads_start.bind fun _ _ => reads_token.bind fun _ _ => ?_
    refine (hpattern _ _ _ _ _ hw).bind fun _ _ => ?_
    refine (reads_isWord_other (by simp)).bind fun _ _ => ?_
    refine (reads_isWord_other (by simp)).bind fun _ _ => ?_
    rw [Bool.false_and, if_neg (by decide)]
    refine reads_eatSign.ite_true (h.bind fun e he => ?_)
    exact (reads_useValue he).bind fun _ _ => reads_pure trivial
  have hlist (keyword : Nat) (constant : Bool) : Reads { st with allowIn := true }
      (g.variableList keyword constant false g.fuel)
      ((.word w false, false) :: (.sign "=", b₁) :: (l, b) :: ts) ((l', b') :: ts') fun _ => True := by
    rw [hg]
    refine (reads_isSign_other (by simp)).ite_false (reads_start.bind fun _ _ => ?_)
    refine (hone constant).bind fun _ _ => ?_
    refine (reads_eatSign_other hl').ite_false ?_
    exact (reads_pure (Q := fun _ => True) trivial).bind fun _ _ => reads_pure trivial
  have hvariables : Reads st (g.declaredVariables false) ((.word "var" false, b₀) ::
      (.word w false, false) :: (.sign "=", b₁) :: (l, b) :: ts) ((l', b') :: ts') fun _ => True :=
    reads_token.bind fun _ _ => reads_bump.bind fun _ _ => reads_within (hlist _ _)
  have hstatement : Reads st g.variableStatement ((.word "var" false, b₀) ::
      (.word w false, false) :: (.sign "=", b₁) :: (l, b) :: ts) ts'' fun _ => True := by
    refine hvariables.bind fun _ _ => hend.ite_true ?_
    exact (reads_pure (Q := fun _ => True) trivial).bind fun _ _ => reads_pure trivial
  have hkeyword : Reads st (g.keywordStatement declarations "var") ((.word "var" false, b₀) ::
      (.word w false, false) :: (.sign "=", b₁) :: (l, b) :: ts) ts'' fun names => names.isSome := by
    show Reads st (some <$> g.variableStatement) _ _ _
    rw [map_eq_pure_bind]
    exact hstatement.bind fun _ _ => reads_pure rfl
  unfold statementOrDeclaration
  refine reads_token.bind fun t ht => ?_
  simp only [ht.1]
  refine hkeyword.bind fun names hnames => ?_
  obtain ⟨names, rfl⟩ := Option.isSome_iff_exists.1 hnames
  exact reads_pure trivial

/-- A value that is given back, where the next token is no semicolon. -/
theorem reads_statement_return (hin : st.inFunction = true) (hblock : st.inStaticBlock = false)
    (hnext : Reads st eatSemicolon ((l, b) :: ts) ((l, b) :: ts) (· = false))
    (hend : Reads st eatSemicolon ts' ts'' (· = true))
    (h : Reads st g.innerExpression ((l, b) :: ts) ts' fun _ => True) :
    Reads st (g.statementOrDeclaration declarations) ((.word "return" false, b₀) :: (l, b) :: ts) ts''
      fun _ => True := by
  have hreturn : Reads st g.returnStatement ((.word "return" false, b₀) :: (l, b) :: ts) ts''
      fun _ => True := by
    refine reads_start.bind fun _ _ => reads_bump.bind fun _ _ => hnext.ite_false ?_
    refine h.bind fun _ _ => ?_
    refine (hend.ite_true (reads_pure (Q := fun _ => True) trivial)).bind fun _ _ => ?_
    refine reads_setting.bind fun around haround => ?_
    rw [haround, hin, hblock]
    exact reads_pure trivial
  have hkeyword : Reads st (g.keywordStatement declarations "return")
      ((.word "return" false, b₀) :: (l, b) :: ts) ts'' (· = some []) :=
    hreturn.bind fun _ _ => reads_pure rfl
  unfold statementOrDeclaration
  refine reads_token.bind fun t ht => ?_
  simp only [ht.1]
  refine hkeyword.bind fun names hnames => ?_
  rw [hnames]
  exact reads_pure trivial

/-! ### The grammar -/

theorem IsVariable.startsOperand (hw : IsVariable w) : (Lexeme.word w false).startsOperand = true := by
  have hwords : ∀ v ∈ ["typeof", "void", "delete", "await", "new", "super", "import", "yield"],
      isReserved v = true := by decide
  simp only [Lexeme.startsOperand, Bool.not_eq_true', List.contains_eq_mem, decide_eq_false_iff_not]
  intro hmem
  exact hw.ne (hwords w hmem) rfl

theorem reads_operand_name (hfuel : 0 < fuel) (hw : IsVariable w) (hl : l.closesOperand = true) :
    Reads st (grammar fuel depth).operand ((.word w false, b₀) :: (l, b) :: ts) ((l, b) :: ts)
      fun e => e.Is (.name w) :=
  reads_operand_alone (by rwa [fuel_grammar]) hw.startsOperand hl
    (reads_primary_name hw (Lexeme.ne_of_apply hl (by decide))) (by simp)

theorem reads_assignment_name (hfuel : 0 < fuel) (hw : IsVariable w) (hl : l.closes = true) :
    Reads st (grammar fuel (depth + 2)).assignment ((.word w false, b₀) :: (l, b) :: ts)
      ((l, b) :: ts) fun e => e.value = none :=
  (reads_assignment_grammar hfuel hw.startsOperand hl
    (reads_operand_name hfuel hw (Lexeme.closesOperand_of_closes hl))).imp
      fun e (he : e.Is (.name w)) => he.value

/-- Variables as arguments. -/
theorem reads_argumentParts_names (hfuel : names.length < n) (hnames : ∀ w ∈ names, IsVariable w) :
    Reads st ((grammar (fuel + 1) (depth + 2)).argumentParts n)
      (nameTokens names ++ (.sign ")", false) :: (l, b) :: ts) ((l, b) :: ts) (AreValues ·.1) := by
  induction names generalizing n with
  | nil =>
    obtain ⟨n, rfl⟩ := Nat.exists_eq_add_one.2 (Nat.zero_lt_of_lt hfuel)
    exact reads_eatSign.ite_true (reads_pure fun p hp => absurd hp List.not_mem_nil)
  | cons w names ih =>
    obtain ⟨n, rfl⟩ := Nat.exists_eq_add_one.2 (Nat.zero_lt_of_lt hfuel)
    have hw := hnames w List.mem_cons_self
    cases names with
    | nil =>
      exact reads_argumentParts_last (by simp) (by simp) (reads_assignment_name fuel.succ_pos hw rfl)
    | cons v names =>
      have hrest := ih (Nat.lt_of_succ_lt_succ hfuel) fun v hv => hnames v (List.mem_cons_of_mem w hv)
      obtain ⟨more, hmore⟩ := exists_nameTokens_cons v names
      rw [hmore] at hrest
      rw [nameTokens, hmore]
      exact reads_argumentParts_cons (by simp) (by simp) (by simp)
        (reads_assignment_name fuel.succ_pos hw rfl) hrest

theorem reads_arguments_names (names : List String) (hfuel : names.length < fuel)
    (hnames : ∀ w ∈ names, IsVariable w) :
    Reads st (grammar fuel (depth + 2)).arguments
      ((.sign "(", b₀) :: (nameTokens names ++ (.sign ")", false) :: (l, b) :: ts)) ((l, b) :: ts)
      fun _ => True := by
  obtain ⟨fuel, rfl⟩ := Nat.exists_eq_add_one.2 (Nat.zero_lt_of_lt hfuel)
  obtain ⟨l', more, hmore⟩ := exists_nameTokens_append names (.sign ")") ((l, b) :: ts)
  have hparts (st : Setting) : Reads st
      ((grammar (fuel + 1) (depth + 2)).argumentParts (fuel + 1))
      (nameTokens names ++ (.sign ")", false) :: (l, b) :: ts) ((l, b) :: ts) (AreValues ·.1) :=
    reads_argumentParts_names hfuel hnames
  rw [hmore] at hparts ⊢
  exact reads_arguments (by rw [fuel_grammar]; exact hparts _)

/-- A member of a variable. -/
theorem reads_operand_member {m : String} (hfuel : 1 < fuel) (hw : IsVariable w)
    (hl : l.closesOperand = true) :
    Reads st (grammar fuel depth).operand
      ((.word w false, b₀) :: (.sign ".", b₁) :: (.word m false, b') :: (l, b) :: ts) ((l, b) :: ts)
      fun e => e.IsTarget := by
  obtain ⟨fuel, rfl⟩ : ∃ n, fuel = n + 2 := Nat.exists_eq_add_of_le' hfuel
  refine reads_operand hw.startsOperand (reads_primary_name hw (by decide)) fun e he =>
    ⟨by simp [he.form], ?_⟩
  rw [fuel_grammar]
  refine reads_following_member ?_
  exact (reads_following_end hl).imp fun e' heq => heq ▸ he.reached (by simp)

/-- A function with a name or without, whose body is a row of statements. -/
theorem reads_assignment_function (name : Option String) (names : List String)
    (hfuel : names.length < fuel) (hbody : n < fuel)
    (hname : ∀ w ∈ name, IsVariable w) (hnames : ∀ w ∈ names, IsVariable w)
    (hl : ∀ raw, l ≠ .string raw) (hl' : l'.closes = true)
    (h : ReadsStatements (grammar fuel (depth + 1)) (ownSetting false false false st) n ((l, b) :: ts)
      ((.sign "\x7d", b₁) :: (l', b') :: ts')) :
    Reads st (grammar fuel (depth + 3)).assignment
      ((.word "function" false, b₀) :: (nameTokens name.toList ++ (.sign "(", false) ::
        (nameTokens names ++ (.sign ")", false) :: (.sign "\x7b", false) :: (l, b) :: ts)))
      ((l', b') :: ts') fun e => e.value = none := by
  have hpattern : ∀ st w l b ts, IsVariable w → Reads st (grammar fuel (depth + 1)).pattern
      ((.word w false, false) :: (l, b) :: ts) ((l, b) :: ts) fun _ => True :=
    fun st w l b ts hw => reads_bindingPattern hw
  have hrest : Reads st (functionRest _ false false false) ((.sign "(", false) :: _) _ _ :=
    reads_functionRest (by rwa [fuel_grammar]) (by rwa [fuel_grammar]) hnames hpattern hl h
  have hfunction : Reads st (grammar fuel (depth + 1)).primary
      ((.word "function" false, b₀) :: (nameTokens name.toList ++ (.sign "(", false) ::
        (nameTokens names ++ (.sign ")", false) :: (.sign "\x7b", false) :: (l, b) :: ts)))
      ((l', b') :: ts') fun e => e.Is .other := by
    cases name with
    | none => exact reads_primary_function (reads_functionExpression_anonymous hrest)
    | some w =>
      exact reads_primary_function (reads_functionExpression_named (hname w rfl) hrest)
  refine Reads.imp (reads_assignment_grammar (Nat.zero_lt_of_lt hbody) rfl hl' ?_)
    fun e (he : e.Is .other) => he.value
  exact reads_operand_alone (by rw [fuel_grammar]; exact Nat.zero_lt_of_lt hbody) rfl
    (Lexeme.closesOperand_of_closes hl') hfunction (by decide)

end SingleFile.Script.Grammar
