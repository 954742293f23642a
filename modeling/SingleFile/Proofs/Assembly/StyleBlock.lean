import SingleFile.Proofs.Assembly.Layout
import SingleFile.Proofs.Assembly.Registration
import SingleFile.Proofs.Script.AcceptedFunctions

/-!
# The registrations of a module

The registrations of a module stand in the body of a function, which another function puts in front of
what creates or renders an instance.  Where all names of the styles stand for themselves, the whole
statement is well formed.
-/

namespace SingleFile.Assembly

open Script Script.Reader Script.Grammar

variable {st : Setting} {ts ts' : List Seen} {l l' : Lexeme} {b b' : Bool} {fuel depth : Nat}
  {entries : StyleResult → List (String × String)} {styles : List StyleResult}
  {declarations : Bool} {saved hook : String}

/-! ### The tokens -/

/-- The tokens of registrations, up to the brace behind them, in front of others. -/
def rowTokens (entries : StyleResult → List (String × String)) (rest : List Seen) :
    Bool → List StyleResult → List Seen
  | afterBreak, [] => (.sign "\x7d", afterBreak) :: rest
  | afterBreak, style :: styles =>
    registrationTokens afterBreak (quoted style.name.toList) ((entries style).map quotedEntry)
      (rowTokens entries rest true styles)

/-- The tokens that keep a function of the options, and those in front of the registrations. -/
def bodyTokens (saved hook : String) (rest : List Seen) : List Seen :=
  (.word "var" false, true) :: (.word saved false, false) :: (.sign "=", false) ::
    (.word optionsName false, false) :: (.sign ".", false) :: (.word hook false, false) ::
    (.word "var" false, true) :: (.word "styleFn" false, false) :: (.sign "=", false) ::
    (.word "function" false, false) :: (.sign "(", false) :: (.sign ")", false) ::
    (.sign "\x7b", false) :: rest

/-- The tokens with which the function around the registrations starts. -/
def openTokens (afterBreak : Bool) (rest : List Seen) : List Seen :=
  (.sign ";", afterBreak) :: (.sign "(", false) :: (.word "function" false, false) ::
    (.sign "(", false) :: (.sign ")", false) :: (.sign "\x7b", false) :: rest

/-- The tokens that put another function in the place of that of the options. -/
def closeTokens (hook : String) (value rest : List Seen) : List Seen :=
  (.word optionsName false, true) :: (.sign ".", false) :: (.word hook false, false) ::
    (.sign "=", false) :: (value ++ (.sign "\x7d", true) :: (.sign ")", false) :: (.sign "(", false) ::
      (.sign ")", false) :: rest)

/-- The tokens of the functions to call before an instance is created. -/
def hooksTokens : List Seen :=
  [(.word "beforeCreate" false, false), (.sign "?", false), (.sign "[", false), (.sign "]", false),
    (.sign ".", false), (.word "concat" false, false), (.sign "(", false),
    (.word "beforeCreate" false, false), (.sign ",", false), (.word "styleFn" false, false),
    (.sign ")", false), (.sign ":", false), (.sign "[", false), (.word "styleFn" false, false),
    (.sign "]", false)]

/-- The tokens of the function that renders in the place of another. -/
def renderTokens : List Seen :=
  [(.word "function" false, false), (.word "renderWithStyleInjection" false, false),
    (.sign "(", false), (.word "h" false, false), (.sign ",", false), (.word "context" false, false),
    (.sign ")", false), (.sign "\x7b", false), (.word "styleFn" false, true), (.sign ".", false),
    (.word "call" false, false), (.sign "(", false), (.word "context" false, false),
    (.sign ")", false), (.word "return" false, true), (.word "originalRender" false, false),
    (.sign "(", false), (.word "h" false, false), (.sign ",", false),
    (.word "context" false, false), (.sign ")", false), (.sign "\x7d", true)]

/-- The tokens of the statement that registers styles, in front of others. -/
def blockTokens (entries : StyleResult → List (String × String)) (functional : Bool)
    (styles : List StyleResult) (afterBreak : Bool) (rest : List Seen) : List Seen :=
  openTokens afterBreak (if functional then
      bodyTokens "originalRender" "render"
        (rowTokens entries (closeTokens "render" renderTokens rest) false styles)
    else bodyTokens "beforeCreate" "beforeCreate"
      (rowTokens entries (closeTokens "beforeCreate" hooksTokens rest) false styles))

/-! ### The text -/

theorem lexes_row {gap rest : List Char} (hgap : gap ∈ [[' '], ['\n']])
    (hnames : ∀ style ∈ styles, PlainText style.name.toList)
    (hcode : ∀ style ∈ styles, IsClassMap style.code (entries style)) (hrest : Lexes rest ts) :
    Lexes (gap ++ ((String.join (styles.map registration)).toList ++ ' ' :: '\x7d' :: rest))
      (rowTokens entries ts (gap.contains '\n') styles) := by
  induction styles generalizing gap with
  | nil =>
    refine .token (fun offset => ?_) hrest
    simp only [List.mem_cons, List.not_mem_nil, or_false] at hgap
    rcases hgap with rfl | rfl <;> exact ⟨_, _, rfl⟩
  | cons style styles ih =>
    have hmore : Lexes (['\n'] ++ _) _ :=
      ih (by simp) (fun s hs => hnames s (List.mem_cons_of_mem style hs))
        fun s hs => hcode s (List.mem_cons_of_mem style hs)
    rw [String.toList_join, List.map_cons, List.flatMap_cons, List.append_assoc, ← String.toList_join]
    exact lexes_registration (by simp_all) (hnames style List.mem_cons_self)
      (hcode style List.mem_cons_self) hmore

theorem finish_notMem_row (h : (.finish, b) ∉ ts) : (.finish, b) ∉ rowTokens entries ts b' styles := by
  induction styles generalizing b' with
  | nil => simpa [rowTokens] using h
  | cons style styles ih =>
    rw [rowTokens, ← List.nil_append (rowTokens _ _ _ _), ← registrationTokens_append, List.mem_append]
    exact not_or.2 ⟨finish_notMem_registration, ih⟩

set_option maxRecDepth 2000 in
theorem lexes_block_component (hnames : ∀ style ∈ styles, PlainText style.name.toList)
    (hcode : ∀ style ∈ styles, IsClassMap style.code (entries style)) :
    Lexes (styleBlock false styles).toList
      (blockTokens entries false styles false [(.finish, true)]) := by
  unfold styleBlock optionsName
  simp only [Bool.false_eq_true, if_false, String.toList_append, List.append_assoc,
    (String.toList_ofList : ";(function() \x7b\n  var beforeCreate = ".toList = _),
    (String.toList_ofList : "__options__".toList = _),
    (String.toList_ofList : ".beforeCreate\n".toList = _),
    (String.toList_ofList : "  var styleFn = function () \x7b ".toList = _),
    (String.toList_ofList : " \x7d\n".toList = _), (String.toList_ofList : "  ".toList = _),
    (String.toList_ofList :
      ".beforeCreate = beforeCreate ? [].concat(beforeCreate, styleFn) : [styleFn]\n\x7d)()\n".toList = _)]
  iterate 19 refine .token (fun _ => ⟨_, _, rfl⟩) ?_
  refine lexes_row List.mem_cons_self hnames hcode ?_
  iterate 23 refine .token (fun _ => ⟨_, _, rfl⟩) ?_
  exact .token (fun _ => ⟨_, _, rfl⟩) (.done [])

set_option maxRecDepth 2000 in
theorem lexes_block_functional (hnames : ∀ style ∈ styles, PlainText style.name.toList)
    (hcode : ∀ style ∈ styles, IsClassMap style.code (entries style)) :
    Lexes (styleBlock true styles).toList
      (blockTokens entries true styles false [(.finish, true)]) := by
  unfold styleBlock optionsName
  simp only [if_true, String.toList_append, List.append_assoc,
    (String.toList_ofList : ";(function() \x7b\n  var originalRender = ".toList = _),
    (String.toList_ofList : "__options__".toList = _),
    (String.toList_ofList : ".render\n".toList = _),
    (String.toList_ofList : "  var styleFn = function () \x7b ".toList = _),
    (String.toList_ofList : " \x7d\n".toList = _), (String.toList_ofList : "  ".toList = _),
    (String.toList_ofList :
      ".render = function renderWithStyleInjection (h, context) \x7b\n".toList = _),
    (String.toList_ofList :
      "    styleFn.call(context)\n    return originalRender(h, context)\n  \x7d\n\x7d)()\n".toList = _)]
  iterate 19 refine .token (fun _ => ⟨_, _, rfl⟩) ?_
  refine lexes_row List.mem_cons_self hnames hcode ?_
  iterate 30 refine .token (fun _ => ⟨_, _, rfl⟩) ?_
  exact .token (fun _ => ⟨_, _, rfl⟩) (.done [])

theorem rowTokens_append (afterBreak : Bool) :
    rowTokens entries ts afterBreak styles ++ ts' =
      rowTokens entries (ts ++ ts') afterBreak styles := by
  induction styles generalizing afterBreak with
  | nil => rfl
  | cons style styles ih => rw [rowTokens, registrationTokens_append, ih, ← rowTokens]

theorem blockTokens_append {functional : Bool} :
    blockTokens entries functional styles b ts ++ ts' =
      blockTokens entries functional styles b (ts ++ ts') := by
  cases functional <;>
    simp [blockTokens, openTokens, bodyTokens, closeTokens, rowTokens_append]

theorem hasTokens_block {functional : Bool} (hnames : ∀ style ∈ styles, PlainText style.name.toList)
    (hcode : ∀ style ∈ styles, IsClassMap style.code (entries style)) :
    HasTokens (styleBlock functional styles).toList
      (blockTokens entries functional styles false []) := by
  refine ⟨⟨true, ?_⟩, fun b => ?_⟩
  · rw [blockTokens_append]
    cases functional with
    | false => exact lexes_block_component hnames hcode
    | true => exact lexes_block_functional hnames hcode
  · cases functional <;>
      simp [blockTokens, openTokens, bodyTokens, closeTokens, hooksTokens, renderTokens,
        finish_notMem_row]

/-! ### The statements -/

theorem exists_rowTokens (entries : StyleResult → List (String × String)) (ts : List Seen)
    (styles : List StyleResult) (afterBreak : Bool) : ∃ l b more,
    rowTokens entries ts afterBreak styles = (l, b) :: more ∧ ∀ raw, l ≠ .string raw := by
  cases styles <;> exact ⟨_, _, _, rfl, by simp⟩

/-- Each registration is two statements. -/
theorem readsStatements_row (hfuel : ∀ style ∈ styles, (entries style).length + 2 < fuel)
    (afterBreak : Bool) : ∃ b', ReadsStatements (grammar fuel (depth + 9)) st (2 * styles.length)
      (rowTokens entries ts afterBreak styles) ((.sign "\x7d", b') :: ts) := by
  induction styles generalizing afterBreak with
  | nil => exact ⟨afterBreak, .done _⟩
  | cons style styles ih =>
    obtain ⟨b', hrest⟩ := ih (fun s hs => hfuel s (List.mem_cons_of_mem style hs)) true
    obtain ⟨l, b, more, hmore, -⟩ := exists_rowTokens entries ts styles true
    have hstyle := hfuel style List.mem_cons_self
    rw [rowTokens, hmore]
    rw [hmore] at hrest
    exact ⟨b', (readsStatements_registration (by rwa [List.length_map])).append hrest⟩

/-- The variable that keeps a function of the options. -/
theorem reads_statement_saved (hfuel : 1 < fuel) (hsaved : IsVariable saved) (hl : l.closes = true)
    (hsign : ∀ s, l ≠ .sign s) :
    Reads st ((grammar fuel (depth + 3)).statement declarations)
      ((.word "var" false, b) :: (.word saved false, false) :: (.sign "=", false) ::
        (.word optionsName false, false) :: (.sign ".", false) :: (.word hook false, false) ::
        (l, true) :: ts) ((l, true) :: ts) fun _ => True := by
  refine reads_statement_var (by rw [fuel_grammar]; omega) hsaved
    (fun st w l b ts hw => reads_bindingPattern hw) (hsign _) (reads_eatSemicolon_break (hsign _)) ?_
  refine (reads_assignment_grammar (by omega) (IsVariable.startsOperand (by decide)) hl
    (reads_operand_member hfuel (by decide) (Lexeme.closesOperand_of_closes hl))).imp ?_
  exact fun e he => he.value

/-- The variable that holds the function of all registrations. -/
theorem reads_statement_registers (hstyles : 2 * styles.length < fuel)
    (hfuel : ∀ style ∈ styles, (entries style).length + 2 < fuel) (hl : l.closes = true)
    (hsign : ∀ s, l ≠ .sign s) :
    Reads st ((grammar fuel (depth + 12)).statement declarations)
      ((.word "var" false, b) :: (.word "styleFn" false, false) :: (.sign "=", false) ::
        (.word "function" false, false) :: (.sign "(", false) :: (.sign ")", false) ::
        (.sign "\x7b", false) :: rowTokens entries ((l, true) :: ts) false styles)
      ((l, true) :: ts) fun _ => True := by
  refine reads_statement_var (by rw [fuel_grammar]; omega) (by decide)
    (fun st w l b ts hw => reads_bindingPattern hw) (hsign _) (reads_eatSemicolon_break (hsign _)) ?_
  obtain ⟨b', hrow⟩ : ∃ b', ReadsStatements (grammar fuel (depth + 9))
      (ownSetting false false false { st with allowIn := true }) (2 * styles.length)
      (rowTokens entries ((l, true) :: ts) false styles) ((.sign "\x7d", b') :: (l, true) :: ts) :=
    readsStatements_row hfuel false
  obtain ⟨l₁, b₁, more, hmore, hstring⟩ := exists_rowTokens entries ((l, true) :: ts) styles false
  rw [hmore] at hrow ⊢
  exact reads_assignment_function none [] (Nat.zero_lt_of_lt hstyles) hstyles (by simp)
    (by simp) hstring hl hrow

/-- The functions to call before an instance is created. -/
theorem reads_assignment_hooks (hfuel : 2 < fuel) (hl : l.closes = true) :
    Reads st (grammar fuel (depth + 6)).assignment (hooksTokens ++ (l, b) :: ts) ((l, b) :: ts)
      fun e => e.value = none := by
  have hpos : 0 < fuel := Nat.zero_lt_of_lt hfuel
  have hcondition (ts : List Seen) : Reads st (grammar fuel (depth + 5)).binary
      ((.word "beforeCreate" false, false) :: (.sign "?", false) :: (.sign "[", false) :: ts)
      ((.sign "?", false) :: (.sign "[", false) :: ts) fun e => ∃ w, e.Is (.name w) :=
    reads_binary (by rwa [fuel_grammar]) rfl (reads_unaryExpression rfl rfl
      ((reads_operand_name hpos (by decide) rfl).imp fun e he => ⟨_, he⟩))
  have hlist (st : Setting) (ts : List Seen) : Reads st (grammar fuel (depth + 5)).assignment
      ((.sign "[", false) :: (.sign "]", false) :: (.sign ".", false) ::
        (.word "concat" false, false) :: (.sign "(", false) :: (.word "beforeCreate" false, false) :: (.sign ",", false) ::
        (.word "styleFn" false, false) :: (.sign ")", false) :: (.sign ":", false) :: ts)
      ((.sign ":", false) :: ts) fun e => e.value = none := by
    refine (reads_assignment_grammar hpos rfl rfl (reads_operand_method hfuel rfl rfl (by simp)
      (reads_primary_array (reads_array_nil (by rwa [fuel_grammar]))) ?_)).imp fun e he => he.value
    exact reads_arguments_names ["beforeCreate", "styleFn"] hfuel (by decide)
  have hsingle : Reads st (grammar fuel (depth + 5)).assignment
      ((.sign "[", false) :: (.word "styleFn" false, false) :: (.sign "]", false) :: (l, b) :: ts)
      ((l, b) :: ts) fun e => e.value = none := by
    have harray : Reads st (grammar fuel (depth + 3)).primary
        ((.sign "[", false) :: (.word "styleFn" false, false) :: (.sign "]", false) :: (l, b) :: ts)
        ((l, b) :: ts) fun e => e.Is .array :=
      reads_primary_array (reads_array_one (by rwa [fuel_grammar]) (by decide) (by decide) (by decide)
        (reads_assignment_name hpos (by decide) rfl))
    exact (reads_assignment_grammar hpos rfl hl (reads_operand_alone (by rwa [fuel_grammar]) rfl
      (Lexeme.closesOperand_of_closes hl) harray (by simp))).imp fun e he => he.value
  refine Reads.imp (reads_assignmentExpression_operation (by decide)
    (reads_conditional_choice (hcondition _) (hlist _ _) hsingle) ?_)
      fun e (he : e.Is .compound) => he.value
  intro e he
  rw [he.form]
  rfl

/-- The function that renders in the place of another. -/
theorem reads_assignment_render (hfuel : 2 < fuel) (hl : l.closes = true) :
    Reads st (grammar fuel (depth + 10)).assignment (renderTokens ++ (l, b) :: ts) ((l, b) :: ts)
      fun e => e.value = none := by
  have hpos : 0 < fuel := Nat.zero_lt_of_lt hfuel
  have hcall (st : Setting) (ts : List Seen) : Reads st (grammar fuel (depth + 7)).assignment
      ((.word "styleFn" false, true) :: (.sign ".", false) :: (.word "call" false, false) ::
        (.sign "(", false) :: (.word "context" false, false) :: (.sign ")", false) ::
        (.word "return" false, true) :: ts) ((.word "return" false, true) :: ts) fun e => e.Is .call :=
    reads_assignment_grammar hpos rfl rfl (reads_operand_method hfuel rfl rfl (by simp)
      (reads_primary_name (by decide) (by decide))
      (reads_arguments_names ["context"] (Nat.lt_of_succ_lt hfuel) (by decide)))
  have hrender (st : Setting) (ts : List Seen) : Reads st (grammar fuel (depth + 7)).assignment
      ((.word "originalRender" false, false) :: (.sign "(", false) :: (.word "h" false, false) ::
        (.sign ",", false) :: (.word "context" false, false) :: (.sign ")", false) ::
        (.sign "\x7d", true) :: ts) ((.sign "\x7d", true) :: ts) fun e => e.value = none :=
    (reads_assignment_grammar hpos rfl rfl (reads_operand_call (Nat.lt_of_succ_lt hfuel) rfl rfl
      (by simp) (reads_primary_name (by decide) (by decide))
      (reads_arguments_names ["h", "context"] hfuel (by decide)))).imp
        fun e (he : e.Is .call) => he.value
  have hbody (ts : List Seen) : ReadsStatements (grammar fuel (depth + 8))
      (ownSetting false false false st) 2
      ((.word "styleFn" false, true) :: (.sign ".", false) :: (.word "call" false, false) ::
        (.sign "(", false) :: (.word "context" false, false) :: (.sign ")", false) ::
        (.word "return" false, true) :: (.word "originalRender" false, false) ::
        (.sign "(", false) :: (.word "h" false, false) :: (.sign ",", false) ::
        (.word "context" false, false) :: (.sign ")", false) :: (.sign "\x7d", true) :: ts)
      ((.sign "\x7d", true) :: ts) := by
    refine .next rfl (reads_statement_expression rfl (reads_expressionStatement
      (reads_eatSemicolon_break (by decide)) ?_ (reads_expression ?_ (by decide) (hcall _ _)))) ?_
    · exact fun e he => ⟨by simp [he.form], he.value⟩
    · rwa [fuel_grammar]
    refine .next rfl (reads_statement_return rfl rfl (reads_eatSemicolon_other (by simp) (by simp))
      (reads_eatSemicolon_break (by decide)) ?_) (.done _)
    exact reads_innerExpression (by rwa [fuel_grammar]) (by decide) (hrender _ _)
  exact reads_assignment_function (some "renderWithStyleInjection") ["h", "context"] hfuel hfuel
    (by decide) (by decide) (by simp) hl (hbody _)

/-- The function around the registrations, which is called at once. -/
theorem readsStatements_wrapper {value : List Seen} (hthree : 3 < fuel)
    (hstyles : 2 * styles.length < fuel)
    (hfuel : ∀ style ∈ styles, (entries style).length + 2 < fuel) (hsaved : IsVariable saved)
    (hvalue : ∀ st ts, Reads st (grammar fuel (depth + 10)).assignment
      ((l, false) :: (value ++ (.sign "\x7d", true) :: ts)) ((.sign "\x7d", true) :: ts)
      fun e => e.value = none) :
    ReadsStatements (grammar fuel (depth + 17)) st 2
      (openTokens b' (bodyTokens saved hook (rowTokens entries
        (closeTokens hook ((l, false) :: value) [(.finish, b)]) false styles))) [(.finish, b)] := by
  have hpos : 0 < fuel := Nat.zero_lt_of_lt hstyles
  have hbody (st : Setting) : ReadsStatements (grammar fuel (depth + 12)) st 3
      (bodyTokens saved hook (rowTokens entries
        (closeTokens hook ((l, false) :: value) [(.finish, b)]) false styles))
      [(.sign "\x7d", true), (.sign ")", false), (.sign "(", false), (.sign ")", false),
        (.finish, b)] := by
    refine .next rfl (reads_statement_saved (by omega) hsaved rfl (by simp)) ?_
    refine .next rfl (reads_statement_registers hstyles hfuel rfl (by simp)) ?_
    refine .next rfl ?_ (.done _)
    exact reads_statement_assignment hpos rfl rfl (by decide) (reads_eatSemicolon_break (by decide))
      (fun st => reads_operand_member (by omega) (by decide) rfl) (hvalue · _)
  have hparen (st : Setting) : Reads st (grammar fuel (depth + 14)).primary
      ((.sign "(", false) :: (.word "function" false, false) :: (.sign "(", false) ::
        (.sign ")", false) :: (.sign "\x7b", false) :: bodyTokens saved hook (rowTokens entries
          (closeTokens hook ((l, false) :: value) [(.finish, b)]) false styles))
      [(.sign "(", false), (.sign ")", false), (.finish, b)] fun e => e.Is .paren :=
    reads_primary_paren fun _ _ => reads_parenthesized (by rwa [fuel_grammar]) (by decide) (by decide)
      (by decide) (reads_assignment_function none [] hpos hthree (by simp) (by simp) (by simp) rfl
        (hbody _))
  have hcall (st : Setting) := reads_assignment_grammar hpos rfl rfl (reads_operand_call (by omega)
    rfl rfl (by simp) (hparen st) (reads_arguments_names [] hpos (by simp)))
  refine .next rfl reads_statement_empty (.next rfl (reads_statement_paren ?_) (.done _))
  refine reads_expressionStatement reads_eatSemicolon_finish ?_
    (reads_expression (by rwa [fuel_grammar]) (by decide) (hcall _))
  exact fun e he => ⟨by simp [he.form], he.value⟩

theorem readsStatements_block {functional : Bool} (hthree : 3 < fuel)
    (hstyles : 2 * styles.length < fuel)
    (hfuel : ∀ style ∈ styles, (entries style).length + 2 < fuel) :
    ReadsStatements (grammar fuel (depth + 17)) st 2
      (blockTokens entries functional styles b' [(.finish, b)]) [(.finish, b)] := by
  have htwo : 2 < fuel := Nat.lt_of_succ_lt hthree
  cases functional with
  | false =>
    exact readsStatements_wrapper hthree hstyles hfuel (by decide)
      fun st ts => reads_assignment_hooks htwo rfl
  | true =>
    exact readsStatements_wrapper hthree hstyles hfuel (by decide)
      fun st ts => reads_assignment_render htwo rfl

/-! ### Registrations in a module -/

theorem infix_join (functional : Bool) (styles : List StyleResult) :
    (String.join (styles.map registration)).toList <:+: (styleBlock functional styles).toList := by
  unfold styleBlock
  cases functional with
  | false =>
    simp only [Bool.false_eq_true, if_false, String.toList_append, List.append_assoc]
    iterate 4 refine List.IsInfix.trans ?_ (List.suffix_append _ _).isInfix
    exact (List.prefix_append _ _).isInfix
  | true =>
    simp only [if_true, String.toList_append, List.append_assoc]
    iterate 4 refine List.IsInfix.trans ?_ (List.suffix_append _ _).isInfix
    exact (List.prefix_append _ _).isInfix

/-- Each registration stands in the statement as it is. -/
theorem infix_registration {functional : Bool} {style : StyleResult} (h : style ∈ styles) :
    (registration style).toList <:+: (styleBlock functional styles).toList := by
  refine List.IsInfix.trans ?_ (infix_join functional styles)
  rw [String.toList_join, List.flatMap_def]
  exact List.infix_of_mem_flatten (List.mem_map_of_mem (List.mem_map_of_mem h))

theorem exists_styleBlock_cons (functional : Bool) (styles : List StyleResult) :
    ∃ c rest, (styleBlock functional styles).toList = ';' :: '(' :: 'f' :: c :: rest := by
  unfold styleBlock
  cases functional with
  | false =>
    simp only [Bool.false_eq_true, if_false, String.toList_append, List.append_assoc,
      (String.toList_ofList : ";(function() \x7b\n  var beforeCreate = ".toList = _)]
    exact ⟨_, _, rfl⟩
  | true =>
    simp only [if_true, String.toList_append, List.append_assoc,
      (String.toList_ofList : ";(function() \x7b\n  var originalRender = ".toList = _)]
    exact ⟨_, _, rfl⟩

theorem length_styles_le (styles : List StyleResult) :
    2 * styles.length ≤ (String.join (styles.map registration)).toList.length := by
  rw [String.toList_join, List.flatMap_map]
  induction styles with
  | nil => exact Nat.le_refl _
  | cons style styles ih =>
    have hle := le_length_registration style
    rw [List.flatMap_cons, List.length_append, List.length_cons]
    omega

/-- Where all names stand for themselves, the statement that registers the styles is well formed. -/
theorem exists_parse_styleBlock {functional : Bool}
    (hnames : ∀ style ∈ styles, PlainText style.name.toList)
    (hcode : ∀ style ∈ styles, IsClassMap style.code (entries style)) :
    ∃ items, parse (styleBlock functional styles) = .ok items := by
  have hfields : ∀ style ∈ styles, ((entries style).length + 2 <
      (styleBlock functional styles).toList.length + 2) := by
    intro style h
    have hentries := length_entries_le (hcode style h)
    have hregistration := le_length_registration style
    have hinfix : (registration style).toList <:+: (styleBlock functional styles).toList :=
      infix_registration h
    have hle := hinfix.length_le
    omega
  have hstyles := (length_styles_le styles).trans (infix_join functional styles).length_le
  obtain ⟨c, rest, htext⟩ := exists_styleBlock_cons functional styles
  have hlong : 4 ≤ (styleBlock functional styles).toList.length := by
    rw [htext]
    simp
  obtain ⟨depth, hdepth⟩ : ∃ depth,
      3 * (styleBlock functional styles).toList.length + 6 = depth + 17 :=
    Nat.exists_eq_add_of_le' (by omega)
  have htokens : HasTokens (styleBlock functional styles).toList
      (blockTokens entries functional styles false []) := hasTokens_block hnames hcode
  refine exists_parse htokens ?_ ?_ (n := 2) (by omega) fun b' => ?_
  · rw [htext]
    rfl
  · rw [htext]
    exact ⟨_, _, _, rfl, rfl⟩
  · rw [hdepth]
    show ReadsStatements _ _ _ (blockTokens entries functional styles true [] ++ [(.finish, b')]) _
    rw [blockTokens_append]
    exact readsStatements_block (by omega) (by omega) hfields

variable {P : String → Prop}

theorem everyAccess_row (hnames : ∀ style ∈ styles, P (quoted style.name.toList))
    (h : EveryAccess P ts) : EveryAccess P (rowTokens entries ts b styles) := by
  induction styles generalizing b with
  | nil => exact everyAccess_cons (by decide) h
  | cons style styles ih =>
    exact everyAccess_registration (hnames style List.mem_cons_self)
      (ih fun s hs => hnames s (List.mem_cons_of_mem style hs))

theorem everyAccess_block {functional : Bool}
    (hnames : ∀ style ∈ styles, P (quoted style.name.toList)) :
    EveryAccess P (blockTokens entries functional styles b []) := by
  cases functional with
  | false =>
    iterate 19 refine everyAccess_cons (by decide) ?_
    refine everyAccess_row hnames ?_
    iterate 23 refine everyAccess_cons (by decide) ?_
    exact everyAccess_nil
  | true =>
    iterate 19 refine everyAccess_cons (by decide) ?_
    refine everyAccess_row hnames ?_
    iterate 30 refine everyAccess_cons (by decide) ?_
    exact everyAccess_nil

/-- The statement that registers styles is well formed, and each member of `this` that stands in it is a
string literal alone whose value is the name of one of them. -/
structure RegistersAll (functional : Bool) (styles : List StyleResult) : Prop where
  parses : ∃ items, parse (styleBlock functional styles) = .ok items
  addresses : ∃ ts, HasTokens (styleBlock functional styles).toList ts ∧
    EveryAccess (fun raw => ∃ style ∈ styles, HasValue raw (unitsOf style.name.toList)) ts

theorem registersAll_of_plain {functional : Bool}
    (hnames : ∀ style ∈ styles, PlainText style.name.toList)
    (hcode : ∀ style ∈ styles, IsClassMap style.code (entries style)) :
    RegistersAll functional styles :=
  ⟨exists_parse_styleBlock hnames hcode, _, hasTokens_block hnames hcode,
    everyAccess_block fun style h => ⟨style, h, hasValue_quoted (hnames style h)⟩⟩

/-- The statement that registers the styles stands in the module as it is, with the registration of each
style.  A registration is well formed and reaches the property of the style's name alone if and only if
nothing in the name is special between quotes.  Where that holds of all styles, the whole statement is
well formed, and styles with different names have no property in common. -/
theorem registers_iff (a : Assembly)
    (hcode : ∀ style ∈ a.styles, ∃ entries, IsClassMap style.code entries) :
    (∀ style ∈ a.styles,
      (registration style).toList <:+: (styleBlock a.isFunctional a.styles).toList ∧
      (styleBlock a.isFunctional a.styles).toList <:+: a.assemble.1.code.toList ∧
      (Registers style ↔ PlainText style.name.toList)) ∧
    ((∀ style ∈ a.styles, PlainText style.name.toList) → RegistersAll a.isFunctional a.styles) ∧
    ∀ style ∈ a.styles, ∀ other ∈ a.styles, PlainText style.name.toList →
      PlainText other.name.toList → style.name ≠ other.name →
      ∀ property, Reaches style property → ¬ Reaches other property := by
  choose! entries hentries using hcode
  have hregisters {style : StyleResult} (h : style ∈ a.styles) :
      Registers style ↔ PlainText style.name.toList := registers_iff_plain (hentries style h)
  refine ⟨fun style h => ⟨infix_registration h, ?_, hregisters h⟩,
    fun hnames => registersAll_of_plain hnames hentries, ?_⟩
  · exact infix_styleBlock (List.ne_nil_of_mem h)
  · intro style h other h' hname hname' hne property hreaches hreaches'
    have hproperty := ((hregisters h).2 hname).eq_of_reaches hreaches
    have hproperty' := ((hregisters h').2 hname').eq_of_reaches hreaches'
    have hnames : style.name.toList = other.name.toList :=
      unitsOf_injective (hproperty.symm.trans hproperty')
    exact hne (String.toList_inj.1 hnames)

/-- Two styles, of which one has the usual name. -/
theorem registers_iff_twoStyles :
    RegistersAll false [⟨"$style", (Json.object [("red", .string "red_1")]).compact⟩,
      ⟨"other", (Json.object []).compact⟩] := by
  have hnames : ∀ style ∈ [(⟨"$style", (Json.object [("red", .string "red_1")]).compact⟩ : StyleResult),
      ⟨"other", (Json.object []).compact⟩], PlainText style.name.toList := by
    simp only [List.forall_mem_cons, List.not_mem_nil, false_imp_iff, implies_true, and_true,
      (String.toList_ofList : "$style".toList = _), (String.toList_ofList : "other".toList = _)]
    decide
  refine (registers_iff ⟨"App.vue", true, false, none, none, _, none⟩ ?_).2.1 hnames
  intro style h
  simp only [List.mem_cons, List.not_mem_nil, or_false] at h
  rcases h with rfl | rfl
  · exact ⟨[("red", "red_1")], rfl⟩
  · exact ⟨[], rfl⟩

theorem reaches_of_hasTokens {style : StyleResult} {raw : String} {fields : List (String × String)}
    {property : List Nat}
    (h : HasTokens (registration style).toList (registrationTokens false raw fields []))
    (hvalue : HasValue raw property) : Reaches style property :=
  ⟨_, raw, false, false, false, _, h,
    ⟨[(.word "if" false, false), (.sign "(", false), (.sign "!", false)], rfl⟩, hvalue⟩

/-- A name with a quote in it ends its literal early, and a name with a backslash means another one. -/
theorem not_registers_quotedName : ¬ Registers ⟨"a'b", (Json.object []).compact⟩ ∧
    ∃ property, Reaches ⟨"\\a", (Json.object []).compact⟩ property ∧
      Reaches ⟨"a", (Json.object []).compact⟩ property := by
  have hcode : (Json.object []).compact.toList = ['\x7b', '\x7d'] := String.toList_ofList
  have hescaped : HasTokens (registration ⟨"\\a", (Json.object []).compact⟩).toList
      (registrationTokens false (quoted ['\\', 'a']) [] []) := by
    have htext := toList_registration ⟨"\\a", (Json.object []).compact⟩ []
    dsimp only at htext
    rw [List.append_nil, hcode, (String.toList_ofList : "\\a".toList = _)] at htext
    refine ⟨⟨true, ?_⟩, fun b => finish_notMem_registration⟩
    rw [htext, registrationTokens_append]
    iterate 36 refine .token (fun _ => ⟨_, _, rfl⟩) ?_
    exact .token (fun _ => ⟨_, _, rfl⟩) (.done [])
  have hplain : PlainText "a".toList := by
    rw [(String.toList_ofList : "a".toList = _)]
    decide
  have htokens : HasTokens (registration ⟨"a", (Json.object []).compact⟩).toList _ :=
    hasTokens_registration hplain (rfl : IsClassMap _ [])
  refine ⟨fun h => ?_, unitsOf ['a'], reaches_of_hasTokens hescaped ?_,
    reaches_of_hasTokens htokens (hasValue_quoted hplain)⟩
  · have hquoted := h.plain
    rw [(String.toList_ofList : "a'b".toList = _)] at hquoted
    exact absurd hquoted (by decide)
  · exact ⟨['\\', 'a'], String.toList_ofList, rfl⟩

end SingleFile.Assembly
