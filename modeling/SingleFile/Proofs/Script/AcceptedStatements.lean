import SingleFile.Proofs.Script.AcceptedExpressions

/-!
# Statements that are accepted

`ReadsStatements` says of some tokens that a number of statements is read from them.  Blocks and modules
are read statement by statement (`reads_blockItems`, `reads_moduleItems`), and a text whose tokens are
statements parses (`exists_parse`).
-/

namespace SingleFile.Script

namespace Grammar

open Reader

variable {g : Grammar} {st : Setting} {ts ts₁ ts' ts'' : List Seen} {l l' : Lexeme}
  {b b₀ b₁ b' b'' : Bool}
  {Q : Expr → Prop} {fuel : Nat} {declarations : Bool}

/-! ### Single statements -/

theorem reads_expressionStatement (hend : Reads st eatSemicolon ts' ts'' (· = true))
    (hform : ∀ e, Q e → (∀ w, e.form ≠ .name w) ∧ e.value = none)
    (h : Reads { st with allowIn := true } g.expression ts ts' Q) :
    Reads st g.expressionStatement ts ts'' fun _ => True := by
  unfold expressionStatement
  refine (reads_within h).bind fun e he => ?_
  obtain ⟨hname, hvalue⟩ := hform e he
  split
  · next text heq => exact absurd heq (hname text)
  · refine (reads_useValue hvalue).bind fun _ _ => ?_
    exact hend.ite_true (reads_pure trivial)

/-- The statement that a word starts, unless the word starts an expression. -/
theorem reads_statement_expression {w : String}
    (hword : g.keywordStatement declarations w = pure none)
    (h : Reads st g.expressionStatement ((.word w false, b) :: ts) ts' fun _ => True) :
    Reads st (g.statementOrDeclaration declarations) ((.word w false, b) :: ts) ts'
      fun _ => True := by
  unfold statementOrDeclaration
  refine reads_token.bind fun t ht => ?_
  simp only [ht.1, hword]
  exact h

/-- A statement that assigns a value to a member. -/
theorem reads_statement_assignment {w : String} {depth : Nat} (hfuel : 0 < fuel)
    (hl : (Lexeme.word w false).startsOperand = true)
    (hword : (grammar fuel (depth + 4)).keywordStatement declarations w = pure none)
    (hcomma : l' ≠ .sign ",") (hend : Reads st eatSemicolon ((l', b') :: ts') ts'' (· = true))
    (htarget : ∀ st, Reads st (grammar fuel (depth + 2)).operand ((.word w false, b₁) :: ts)
      ((.sign "=", b₀) :: (l, b) :: ts₁) Expr.IsTarget)
    (h : ∀ st, Reads st (grammar fuel (depth + 3)).assignment ((l, b) :: ts₁) ((l', b') :: ts')
      fun e => e.value = none) :
    Reads st ((grammar fuel (depth + 5)).statement declarations) ((.word w false, b₁) :: ts) ts''
      fun _ => True := by
  have hexpression := reads_expression (by rwa [fuel_grammar]) hcomma
    (reads_assignment_member hfuel hl (htarget { st with allowIn := true }) (h _))
  refine reads_statement_expression hword (reads_expressionStatement hend ?_ hexpression)
  exact fun e he => ⟨fun w => by simp [he.form], he.value⟩

theorem reads_statement_if
    (hcondition : Reads st g.innerExpression ((l, b) :: ts) ((.sign ")", b₀) :: (l', b') :: ts')
      fun _ => True)
    (hbody : Reads st (g.statement false) ((l', b') :: ts') ts'' fun _ => True)
    (helse : ∃ l b ts, ts'' = (l, b) :: ts ∧ l ≠ .word "else" false) :
    Reads st (g.statementOrDeclaration declarations)
      ((.word "if" false, b₁) :: (.sign "(", b'') :: (l, b) :: ts) ts'' fun _ => True := by
  obtain ⟨l₂, b₂, ts₂, rfl, helse⟩ := helse
  have hif : Reads st g.ifStatement ((.word "if" false, b₁) :: (.sign "(", b'') :: (l, b) :: ts)
      ((l₂, b₂) :: ts₂) fun _ => True := by
    refine reads_bump.bind fun _ _ => reads_expectSign.bind fun _ _ => hcondition.bind fun _ _ => ?_
    refine reads_eatSign.ite_true (hbody.bind fun _ _ => ?_)
    exact (reads_eatWord_other helse).ite_false (reads_pure trivial)
  have hkeyword : Reads st (g.keywordStatement declarations "if")
      ((.word "if" false, b₁) :: (.sign "(", b'') :: (l, b) :: ts) ((l₂, b₂) :: ts₂)
      (· = some []) :=
    hif.bind fun _ _ => reads_pure rfl
  unfold statementOrDeclaration
  refine reads_token.bind fun t ht => ?_
  simp only [ht.1]
  refine hkeyword.bind fun names hnames => ?_
  rw [hnames]
  exact reads_pure trivial

end Grammar

/-! ### Statements in a row -/

/-- A lexeme with which a statement starts and none goes on. -/
def Lexeme.startsStatement : Lexeme → Bool
  | .sign s => s ≠ "\x7d"
  | .word w _ => !(["else", "import", "export"].contains w)
  | .finish => false
  | _ => true

namespace Grammar

open Reader

variable {g : Grammar} {st : Setting} {ts ts' ts'' : List Seen} {l l' : Lexeme} {b b₀ b₁ b' : Bool}
  {n m fuel : Nat} {declarations : Bool}

inductive ReadsStatements (g : Grammar) (st : Setting) : Nat → List Seen → List Seen → Prop
  | done (ts : List Seen) : ReadsStatements g st 0 ts ts
  | next {n : Nat} {l : Lexeme} {b : Bool} {ts ts' ts'' : List Seen} (hl : l.startsStatement = true)
      (h : Reads st (g.statement true) ((l, b) :: ts) ts' fun _ => True)
      (hrest : ReadsStatements g st n ts' ts'') : ReadsStatements g st (n + 1) ((l, b) :: ts) ts''

theorem ReadsStatements.append (h : ReadsStatements g st n ts ts')
    (h' : ReadsStatements g st m ts' ts'') : ReadsStatements g st (m + n) ts ts'' := by
  induction h with
  | done ts => exact h'
  | next hl h _ ih => exact .next hl h (ih h')

theorem reads_many_none {α : Type} {part : Reader (Option α)} (hfuel : 0 < fuel)
    (h : Reads st part ts ts (· = none)) : Reads st (Reader.many part fuel) ts ts (· = []) := by
  obtain ⟨fuel, rfl⟩ := Nat.exists_eq_add_one.2 hfuel
  refine h.bind fun a ha => ?_
  rw [ha]
  exact reads_pure rfl

/-- Parts that are read one by one are statements, up to some tokens that are none. -/
theorem ReadsStatements.many {α : Type} {part : Reader (Option α)} (h : ReadsStatements g st n ts ts')
    (hfuel : n < fuel) (hstop : Reads st part ts' ts' (· = none))
    (hstep : ∀ l b ts ts', l.startsStatement = true →
      Reads st (g.statement true) ((l, b) :: ts) ts' (fun _ => True) →
      Reads st part ((l, b) :: ts) ts' fun a => a.isSome) :
    Reads st (Reader.many part fuel) ts ts' fun _ => True := by
  induction h generalizing fuel with
  | done ts => exact (reads_many_none (Nat.zero_lt_of_lt hfuel) hstop).imp fun _ _ => trivial
  | next hl h _ ih =>
    obtain ⟨fuel, rfl⟩ := Nat.exists_eq_add_one.2 (Nat.zero_lt_of_lt hfuel)
    refine (hstep _ _ _ _ hl h).bind fun a ha => ?_
    obtain ⟨a, rfl⟩ := Option.isSome_iff_exists.1 ha
    exact (ih (Nat.lt_of_succ_lt_succ hfuel) hstop).bind fun _ _ => reads_pure trivial

theorem reads_blockItems (hfuel : n < g.fuel)
    (h : ReadsStatements g st n ts ((.sign "\x7d", b₀) :: (l', b') :: ts')) :
    Reads st g.blockItems ts ((l', b') :: ts') fun _ => True := by
  refine (h.many hfuel ?_ fun l b ts ts' hl h => ?_).bind fun _ _ => reads_expectSign
  · exact reads_isSign.ite_true (reads_pure rfl)
  · refine (reads_isSign_other (Lexeme.ne_of_apply hl (by decide))).ite_false ?_
    refine reads_token.bind fun t ht => ?_
    rw [ht.1, if_neg (by simpa using Lexeme.ne_of_apply hl (by decide))]
    exact h.bind fun _ _ => reads_pure rfl

theorem reads_block (hfuel : n < g.fuel)
    (h : ReadsStatements g st n ((l, b) :: ts) ((.sign "\x7d", b₀) :: (l', b') :: ts')) :
    Reads st (g.statementOrDeclaration declarations) ((.sign "\x7b", b₁) :: (l, b) :: ts)
      ((l', b') :: ts') fun _ => True := by
  have hblock : Reads st g.block ((.sign "\x7b", b₁) :: (l, b) :: ts) ((l', b') :: ts') fun _ => True :=
    reads_expectSign.bind fun _ _ => reads_blockItems hfuel h
  unfold statementOrDeclaration
  refine reads_token.bind fun t ht => ?_
  simp only [ht.1]
  exact hblock.bind fun _ _ => reads_pure trivial

theorem reads_moduleItems (hfuel : n < g.fuel) (h : ReadsStatements g st n ts [(.finish, b₀)]) :
    Reads st g.moduleItems ts [(.finish, b₀)] fun _ => True := by
  refine h.many hfuel ?_ fun l b ts ts' hl h => ?_
  · refine reads_token.bind fun t ht => ?_
    rw [if_pos ht.1]
    exact reads_pure rfl
  · have hspan (s : Nat) : Reads st (spanFrom s) ts' ts' fun _ => True :=
      reads_lastStop.bind fun _ _ => reads_pure trivial
    have hitem : Reads st g.moduleItem ((l, b) :: ts) ts' fun _ => True := by
      refine reads_start.bind fun s _ => reads_token.bind fun t ht => ?_
      split
      · next heq => exact absurd (ht.1.symm.trans heq) (Lexeme.ne_of_apply hl (by decide))
      · next heq => exact absurd (ht.1.symm.trans heq) (Lexeme.ne_of_apply hl (by decide))
      · exact h.bind fun _ _ => (hspan s).bind fun _ _ => reads_pure trivial
    refine reads_token.bind fun t ht => ?_
    rw [ht.1, if_neg (Lexeme.ne_of_apply hl (by decide))]
    exact hitem.bind fun _ _ => reads_pure rfl

end Grammar

/-! ### Modules -/

/-- A text whose tokens are statements is a module. -/
theorem exists_parse {source : String} {l : Lexeme} {b : Bool} {n : Nat} {ts : List Seen}
    (htokens : HasTokens source.toList ((l, b) :: ts))
    (hskip : skipInterpreter source.toList = (0, source.toList))
    (hfirst : ∃ start stop rest,
      readToken false 0 source.toList = (⟨l, start, stop, b⟩, rest, []) ∧
      readToken true 0 source.toList = (⟨l, start, stop, true⟩, rest, []))
    (hfuel : n < source.toList.length + 2)
    (h : ∀ b', Grammar.ReadsStatements
      (grammar (source.toList.length + 2) (3 * source.toList.length + 6)) {} n
      ((l, true) :: (ts ++ [(.finish, b')])) [(.finish, b')]) :
    ∃ items, parse source = .ok items := by
  obtain ⟨start, stop, rest, hread, hfirst⟩ := hfirst
  obtain ⟨b', hlexes⟩ := htokens.lexes
  obtain ⟨-, hrest⟩ := hlexes.of_readToken hread
  have hfaces : Reading.Faces { token := ⟨l, start, stop, true⟩, rest, problems := [] } {}
      ((l, true) :: (ts ++ [(.finish, b')])) := by
    refine ⟨rfl, rfl, fun l' b' more heq => ?_⟩
    obtain ⟨hseen, rfl⟩ := List.cons.inj heq
    obtain ⟨rfl, rfl⟩ := Prod.mk.inj hseen
    exact ⟨rfl, rfl, hrest⟩
  obtain ⟨items, r, hrun, hr, -⟩ :=
    Grammar.reads_moduleItems (by rwa [Grammar.fuel_grammar]) (h b') _ hfaces
  have hrun : (grammar (source.toList.length + 2) (3 * source.toList.length + 6)).moduleItems.run
      { token := ⟨l, start, stop, true⟩, rest } = .ok items r := hrun
  refine ⟨items, ?_⟩
  unfold parse
  dsimp only
  rw [hskip]
  dsimp only
  rw [hfirst]
  dsimp only
  rw [hrun]
  dsimp only
  rw [hr.problems]

end SingleFile.Script
