import SingleFile.Proofs.Script.Acceptance

/-!
# Expressions that are accepted

One lemma for each reader of the grammar on the way to an expression, for the tokens that lead there.
What stands behind an expression is one of a few lexemes with which it does not go on
(`Lexeme.closes`), so an operand is an expression already.
-/

namespace SingleFile.Script

/-- An expression of a form, without fault as a value. -/
structure Expr.Is (e : Expr) (form : Form) : Prop where
  form : e.form = form
  value : e.value = none

structure Expr.IsTarget (e : Expr) : Prop extends e.Is .member where
  target : e.target = none

theorem Expr.Is.reached {e : Expr} {form : Form} (h : e.Is form) (hform : form ≠ .chain) :
    e.reached.IsTarget := by
  have hchain : e.inChain = false := by simp [Expr.inChain, h.form, hform]
  unfold Expr.reached
  rw [hchain]
  exact ⟨⟨rfl, h.value⟩, rfl⟩

theorem Expr.Is.called {e : Expr} {form : Form} (h : e.Is form) (hform : form ≠ .chain) :
    e.called.Is .call := by
  have hchain : e.inChain = false := by simp [Expr.inChain, h.form, hform]
  unfold Expr.called
  rw [hchain]
  exact ⟨rfl, h.value⟩

/-- A lexeme behind an expression, with which it does not go on. -/
def Lexeme.closes : Lexeme → Bool
  | .sign s => [")", "]", "\x7d", ",", ";", ":"].contains s
  | .word w _ => !(["in", "instanceof"].contains w)
  | .finish => true
  | _ => false

/-- A lexeme behind an operand, which is no operator between two operands. -/
def Lexeme.closesOperand (l : Lexeme) : Bool := l.closes || l = .sign "=" || l = .sign "?"

def Lexeme.startsOperand : Lexeme → Bool
  | .sign s => !(["++", "--", "+", "-", "~", "!"].contains s)
  | .word w _ =>
    !(["typeof", "void", "delete", "await", "new", "super", "import", "yield"].contains w)
  | _ => true

theorem Lexeme.closesOperand_of_closes {l : Lexeme} (h : l.closes = true) :
    l.closesOperand = true := by
  simp [Lexeme.closesOperand, h]

/-- Two lexemes of which one has a property. -/
theorem Lexeme.ne_of_apply {l m : Lexeme} {f : Lexeme → Bool} (hl : f l = true) (hm : f m = false) :
    l ≠ m := by
  rintro rfl
  exact Bool.noConfusion (hl.symm.trans hm)

theorem Lexeme.sign_mem_of_closes {s : String} (h : (Lexeme.sign s).closes = true) :
    s ∈ [")", "]", "\x7d", ",", ";", ":"] := by
  simpa only [Lexeme.closes, List.contains_eq_mem, decide_eq_true_eq] using h

theorem notMem_operationAssignments {s : String} (h : (Lexeme.sign s).closes = true) :
    s ∉ operationAssignments := by
  have hsigns : ∀ s ∈ [")", "]", "\x7d", ",", ";", ":"], s ∉ operationAssignments := by decide
  exact hsigns s (Lexeme.sign_mem_of_closes h)

theorem precedence?_of_closesOperand {t : Token} (h : t.lexeme.closesOperand = true)
    (allowIn : Bool) : t.precedence? allowIn = none := by
  unfold Token.precedence?
  cases hl : t.lexeme with
  | sign s =>
    rw [hl] at h
    simp only [Lexeme.closesOperand, Lexeme.closes, Bool.or_eq_true, decide_eq_true_eq,
      List.contains_eq_mem, List.mem_cons, List.not_mem_nil, or_false, Lexeme.sign.injEq] at h
    rcases h with ((rfl | rfl | rfl | rfl | rfl | rfl) | rfl) | rfl <;> rfl
  | word w escaped =>
    rw [hl] at h
    split
    · next heq => cases heq
    · next heq =>
      cases heq
      exact absurd h (by decide)
    · next heq =>
      cases heq
      exact absurd h (by decide)
    · rfl
  | _ => rfl

namespace Grammar

open Reader

variable {g : Grammar} {st : Setting} {ts ts' ts'' : List Seen} {l l' : Lexeme} {b b₀ b₁ b' b'' : Bool}
  {P Q : Expr → Prop} {fuel : Nat} {calls : Bool} {e : Expr} {form : Form}

theorem reads_useValue (h : e.value = none) : Reads st (useValue e) ts ts fun _ => True := by
  unfold useValue
  rw [h]
  exact reads_pure trivial

/-! ### Operands -/

theorem reads_rigidly {p : Reader Unit} (h : Reads st p ts ts' fun _ => True) :
    Reads st (rigidly p) ts ts' fun e => e.Is .other :=
  reads_start.bind fun _ _ => h.bind fun _ _ => reads_pure ⟨rfl, rfl⟩

theorem reads_primary_string {raw : String} :
    Reads st g.primary ((.string raw, b) :: (l', b') :: ts) ((l', b') :: ts) fun e => e.Is .other := by
  unfold primary
  refine reads_token.bind fun t ht => reads_get.bind fun r _ => ?_
  simp only [ht.1]
  exact reads_rigidly reads_bump

theorem reads_primary_this :
    Reads st g.primary ((.word "this" false, b) :: (l', b') :: ts) ((l', b') :: ts)
      fun e => e.Is .other := by
  unfold primary
  refine reads_token.bind fun t ht => reads_get.bind fun r _ => ?_
  simp only [ht.1]
  exact reads_rigidly reads_bump

theorem reads_primary_object (h : Reads st g.object ((.sign "\x7b", b) :: ts) ts' Q) :
    Reads st g.primary ((.sign "\x7b", b) :: ts) ts' Q := by
  unfold primary
  refine reads_token.bind fun t ht => reads_get.bind fun r _ => ?_
  simp only [ht.1]
  exact h

theorem reads_asyncFunctionNext (h : l ≠ .word "async" false) :
    Reads st asyncFunctionNext ((l, b) :: ts) ((l, b) :: ts) (· = false) :=
  (reads_isWord_other h).ite_false (reads_pure rfl)

/-- The words that name variables in all code and mean nothing else. -/
def IsVariable (w : String) : Prop :=
  isReserved w = false ∧ w ∉ ["let", "static", "eval", "arguments", "async"]

instance (w : String) : Decidable (IsVariable w) :=
  inferInstanceAs (Decidable (_ ∧ _))

theorem IsVariable.ne {v w : String} (h : IsVariable w) (hv : isReserved v = true) : w ≠ v := by
  rintro rfl
  exact Bool.noConfusion (hv.symm.trans h.1)

/-- The name of a variable, behind which no arrow stands. -/
theorem reads_nameOrArrow {w : String} {canBeArrow : Bool} (hw : IsVariable w)
    (hl : l' ≠ .sign "=>") :
    Reads st (g.nameOrArrow canBeArrow) ((.word w false, b) :: (l', b') :: ts) ((l', b') :: ts)
      fun e => e.Is (.name w) := by
  obtain ⟨hreserved, hplain⟩ := hw
  simp only [List.mem_cons, List.not_mem_nil, or_false, not_or] at hplain
  obtain ⟨hlet, -, heval, harguments, hasync⟩ := hplain
  unfold nameOrArrow
  refine reads_token.bind fun t ht => ?_
  simp only [wordOf, ht.1, hreserved, hlet, heval, harguments, hasync, if_false, Bool.false_eq_true]
  refine reads_bump.bind fun _ _ => reads_token.bind fun after hafter => ?_
  split
  · exact (reads_eatSign_other hl).ite_false (reads_setting.bind fun _ _ => reads_pure ⟨rfl, rfl⟩)
  · exact reads_setting.bind fun _ _ => reads_pure ⟨rfl, rfl⟩

theorem reads_primary_name {w : String} (hw : IsVariable w) (hl : l' ≠ .sign "=>") :
    Reads st g.primary ((.word w false, b) :: (l', b') :: ts) ((l', b') :: ts)
      fun e => e.Is (.name w) := by
  have hasync : w ≠ "async" := fun h => hw.2 (by simp [h])
  have hvalue : ["this", "null", "true", "false"].contains w = false := by
    simp [hw.ne (by decide : isReserved "this" = true), hw.ne (by decide : isReserved "null" = true),
      hw.ne (by decide : isReserved "true" = true), hw.ne (by decide : isReserved "false" = true)]
  unfold primary
  refine reads_token.bind fun t ht => reads_get.bind fun r _ => ?_
  simp only [ht.1]
  split
  all_goals first
    | next heq => exact Lexeme.noConfusion heq
    | skip
  · next heq => exact absurd (Lexeme.word.inj heq).1 (hw.ne (by decide))
  · next heq => exact absurd (Lexeme.word.inj heq).1 (hw.ne (by decide))
  · next heq =>
    obtain ⟨rfl, -⟩ := Lexeme.word.inj heq
    rw [hvalue, if_neg (by decide)]
    refine (reads_asyncFunctionNext (by simpa using hasync)).ite_false ?_
    rw [if_neg (by simp [hasync])]
    exact reads_nameOrArrow hw hl
  · next heq => cases heq
  · next hno _ => exact absurd rfl (hno w)

/-! ### What follows an operand -/

theorem reads_anyName {w : String} {escaped : Bool} :
    Reads st anyName ((.word w escaped, b) :: (l', b') :: ts) ((l', b') :: ts) fun _ => True := by
  refine reads_token.bind fun t ht => ?_
  simp only [ht.1]
  exact reads_bump.bind fun _ _ => reads_pure trivial

theorem reads_member {w : String} {escaped : Bool} :
    Reads st (member e) ((.word w escaped, b) :: (l', b') :: ts) ((l', b') :: ts) (· = e.reached) := by
  unfold member
  refine (reads_isSign_other (by simp)).bind fun a ha => ?_
  rw [ha, if_neg (by decide)]
  exact reads_anyName.bind fun _ _ => reads_pure rfl

/-- A member in brackets, of which `ts` are the tokens behind the opening one. -/
theorem reads_indexed
    (h : Reads st g.innerExpression ((l, b) :: ts) ((.sign "]", b') :: (l', b'') :: ts')
      fun _ => True) :
    Reads st (g.indexed e) ((.sign "[", b₀) :: (l, b) :: ts) ((l', b'') :: ts') (· = e.reached) :=
  reads_bump.bind fun _ _ => h.bind fun _ _ => reads_expectSign.bind fun _ _ => reads_pure rfl

theorem reads_following_end (h : l.closesOperand = true) :
    Reads st (g.following calls (fuel + 1) e) ((l, b) :: ts) ((l, b) :: ts) (· = e) := by
  unfold following
  refine reads_token.bind fun t ht => ?_
  split
  all_goals first
    | exact reads_pure rfl
    | next hsign => exact absurd (ht.1.symm.trans hsign) (Lexeme.ne_of_apply h (by decide))

theorem reads_following_member {w : String} {escaped : Bool}
    (h : Reads st (g.following calls fuel e.reached) ((l', b') :: ts) ts' Q) :
    Reads st (g.following calls (fuel + 1) e)
      ((.sign ".", b₀) :: (.word w escaped, b) :: (l', b') :: ts) ts' Q := by
  rw [following]
  refine reads_token.bind fun t ht => ?_
  simp only [ht.1]
  refine reads_bump.bind fun _ _ => reads_member.bind fun a ha => ?_
  rw [ha]
  exact h

theorem reads_following_indexed
    (hinner : Reads st g.innerExpression ((l, b) :: ts) ((.sign "]", b') :: (l', b'') :: ts')
      fun _ => True)
    (h : Reads st (g.following calls fuel e.reached) ((l', b'') :: ts') ts'' Q) :
    Reads st (g.following calls (fuel + 1) e) ((.sign "[", b₀) :: (l, b) :: ts) ts'' Q := by
  rw [following]
  refine reads_token.bind fun t ht => ?_
  simp only [ht.1]
  refine (reads_indexed hinner).bind fun a ha => ?_
  rw [ha]
  exact h

theorem reads_following_call
    (harguments : Reads st g.arguments ((.sign "(", b) :: ts) ts' fun _ => True)
    (h : Reads st (g.following true fuel e.called) ts' ts'' Q) :
    Reads st (g.following true (fuel + 1) e) ((.sign "(", b) :: ts) ts'' Q := by
  rw [following]
  refine reads_token.bind fun t ht => ?_
  simp only [ht.1, if_true]
  exact harguments.bind fun _ _ => h

theorem reads_operand (hl : l.startsOperand = true)
    (h : Reads st g.primary ((l, b) :: ts) ts' P)
    (hfollow : ∀ e, P e → e.form ≠ .arrow ∧ Reads st (g.following true g.fuel e) ts' ts'' Q) :
    Reads st g.operand ((l, b) :: ts) ts'' Q := by
  unfold operand operandWith
  refine reads_start.bind fun _ _ => ?_
  refine (reads_isWord_other (Lexeme.ne_of_apply hl (by decide))).ite_false ?_
  refine (reads_isWord_other (Lexeme.ne_of_apply hl (by decide))).ite_false ?_
  refine (reads_isWord_other (Lexeme.ne_of_apply hl (by decide))).ite_false ?_
  refine h.bind fun e he => ?_
  obtain ⟨hform, hrest⟩ := hfollow e he
  unfold withFollowing
  rw [if_neg hform]
  exact hrest

/-- An operand alone. -/
theorem reads_operand_alone (hfuel : 0 < g.fuel) (hl : l.startsOperand = true)
    (hl' : l'.closesOperand = true)
    (h : Reads st g.primary ((l, b) :: ts) ((l', b') :: ts') fun e => e.Is form)
    (hform : form ≠ .arrow) :
    Reads st g.operand ((l, b) :: ts) ((l', b') :: ts') fun e => e.Is form := by
  obtain ⟨fuel, hfuel⟩ : ∃ fuel, g.fuel = fuel + 1 := Nat.exists_eq_add_one.2 hfuel
  refine reads_operand hl h fun e he => ⟨by rw [he.form]; exact hform, ?_⟩
  rw [hfuel]
  exact (reads_following_end hl').imp fun e' heq => heq ▸ he

/-! ### Operators -/

theorem reads_unaryExpression (hl : l.startsOperand = true) (hl' : l'.closesOperand = true)
    (h : Reads st g.operand ((l, b) :: ts) ((l', b') :: ts') Q) :
    Reads st g.unaryExpression ((l, b) :: ts) ((l', b') :: ts') Q := by
  unfold unaryExpression
  refine reads_token.bind fun t ht => ?_
  split
  all_goals first
    | next hsign => exact absurd (ht.1.symm.trans hsign) (Lexeme.ne_of_apply hl (by decide))
    | skip
  refine h.bind fun e he => reads_token.bind fun t' ht' => ?_
  split
  · exact reads_pure he
  · refine (reads_isSign_other (Lexeme.ne_of_apply hl' (by decide))).bind fun a ha => ?_
    refine (reads_isSign_other (Lexeme.ne_of_apply hl' (by decide))).bind fun a' ha' => ?_
    rw [ha, ha', if_neg (by decide)]
    exact reads_pure he

/-- A negation. -/
theorem reads_unaryExpression_not
    (h : Reads st g.unary ((l, b) :: ts) ts' fun e => e.value = none) :
    Reads st g.unaryExpression ((.sign "!", b₀) :: (l, b) :: ts) ts' fun e => e.Is .unary := by
  unfold unaryExpression
  refine reads_token.bind fun t ht => ?_
  simp only [ht.1]
  refine reads_bump.bind fun _ _ => h.tryCatch.bind fun e he => ?_
  exact reads_pure ⟨rfl, he⟩

theorem reads_binary (hfuel : 0 < g.fuel) (hl : l.closesOperand = true)
    (h : Reads st g.unary ts ((l, b) :: ts') Q) : Reads st g.binary ts ((l, b) :: ts') Q := by
  obtain ⟨fuel, hfuel⟩ : ∃ fuel, g.fuel = fuel + 1 := Nat.exists_eq_add_one.2 hfuel
  have hoperand : Reads st g.operatorOperand ts ((l, b) :: ts') Q :=
    reads_start.bind fun _ _ => h.tryCatch
  refine hoperand.bind fun e he => ?_
  split
  · exact reads_pure he
  · rw [hfuel, binaryTail]
    refine reads_token.bind fun t ht => reads_setting.bind fun s _ => ?_
    rw [precedence?_of_closesOperand (ht.1 ▸ hl)]
    exact reads_pure he

theorem reads_conditional (hl : l ≠ .sign "?") (h : Reads st g.binary ts ((l, b) :: ts') Q) :
    Reads st g.conditional ts ((l, b) :: ts') Q := by
  refine h.bind fun e he => ?_
  split
  · exact reads_pure he
  · exact (reads_eatSign_other hl).ite_false (reads_pure he)

theorem reads_assignmentTo_end (hl : l.closes = true) :
    Reads st (g.assignmentTo e) ((l, b) :: ts) ((l, b) :: ts) (· = e) := by
  unfold assignmentTo
  refine reads_token.bind fun t ht => ?_
  split
  · next hsign => exact absurd (ht.1.symm.trans hsign) (Lexeme.ne_of_apply hl (by decide))
  · next s _ hsign =>
    have hs : (Lexeme.sign s).closes = true := by rwa [← hsign, ht.1]
    rw [if_neg (by simp [notMem_operationAssignments hs])]
    exact reads_pure rfl
  · exact reads_pure rfl

theorem reads_assignmentTo_equals (htarget : e.target = none)
    (h : Reads st g.assignment ((l, b) :: ts) ts' fun e => e.value = none) :
    Reads st (g.assignmentTo e) ((.sign "=", b₀) :: (l, b) :: ts) ts' fun e => e.Is .assignment := by
  unfold assignmentTo
  refine reads_token.bind fun t ht => ?_
  simp only [ht.1, htarget]
  refine reads_bump.bind fun _ _ => h.bind fun right hright => ?_
  exact reads_pure ⟨rfl, hright⟩

theorem reads_assignmentExpression (hl : l ≠ .word "yield" false)
    (h : Reads st g.conditional ((l, b) :: ts) ts' P)
    (hrest : ∀ e, P e →
      Reads st (if e.form.isOperation then pure e else g.assignmentTo e) ts' ts'' Q) :
    Reads st g.assignmentExpression ((l, b) :: ts) ts'' Q := by
  unfold assignmentExpression
  refine reads_start.bind fun _ _ => reads_setting.bind fun s _ => ?_
  refine (reads_isWord_other hl).bind fun a ha => ?_
  rw [ha, Bool.and_false, if_neg (by decide)]
  refine (reads_modify ?_).bind fun _ _ => h.bind hrest
  exact fun r hr => ⟨hr.problems, hr.setting, hr.tokens⟩

/-- An operation, to which nothing is assigned. -/
theorem reads_assignmentExpression_operation (hl : l ≠ .word "yield" false)
    (h : Reads st g.conditional ((l, b) :: ts) ts' Q)
    (hform : ∀ e, Q e → e.form.isOperation = true) :
    Reads st g.assignmentExpression ((l, b) :: ts) ts' Q := by
  refine reads_assignmentExpression hl h fun e he => ?_
  rw [if_pos (hform e he)]
  exact reads_pure he

/-- An operand alone, to which nothing is assigned. -/
theorem reads_assignmentExpression_end (hl : l ≠ .word "yield" false) (hl' : l'.closes = true)
    (h : Reads st g.conditional ((l, b) :: ts) ((l', b') :: ts') Q) :
    Reads st g.assignmentExpression ((l, b) :: ts) ((l', b') :: ts') Q := by
  refine reads_assignmentExpression hl h fun e he => ?_
  split
  · exact reads_pure he
  · exact (reads_assignmentTo_end hl').imp fun e' heq => heq ▸ he

theorem reads_expression (hfuel : 0 < g.fuel) (hl : l ≠ .sign ",")
    (h : Reads st g.assignment ts ((l, b) :: ts') Q) :
    Reads st g.expression ts ((l, b) :: ts') Q := by
  obtain ⟨fuel, hfuel⟩ : ∃ fuel, g.fuel = fuel + 1 := Nat.exists_eq_add_one.2 hfuel
  refine h.bind fun e he => ?_
  rw [hfuel, sequenceTail]
  exact (reads_eatSign_other hl).ite_false (reads_pure he)

theorem reads_innerExpression (hfuel : 0 < g.fuel) (hl : l ≠ .sign ",")
    (h : Reads { st with allowIn := true } g.assignment ts ((l, b) :: ts') fun e => e.value = none) :
    Reads st g.innerExpression ts ((l, b) :: ts') fun _ => True :=
  (reads_within (reads_expression hfuel hl h)).bind fun _ he => reads_useValue he

/-! ### Objects -/

theorem reads_propertyName_string {raw : String} :
    Reads st g.propertyName ((.string raw, b) :: (l', b') :: ts) ((l', b') :: ts) (· = none) := by
  refine reads_token.bind fun t ht => ?_
  simp only [ht.1]
  exact reads_bump.bind fun _ _ => reads_pure rfl

theorem reads_standsAlone {alone : List String} :
    Reads st (standsAlone alone) ((l, b) :: (l', b') :: ts) ((l, b) :: (l', b') :: ts)
      fun _ => True := by
  refine reads_peek.bind fun t _ => ?_
  split
  all_goals exact reads_pure trivial

/-- A property whose name is a string. -/
theorem reads_property_string {raw : String}
    (h : Reads st g.assignment ((l, b') :: ts) ts' fun e => e.value = none) :
    Reads st g.property ((.string raw, b) :: (.sign ":", b₀) :: (l, b') :: ts) ts'
      fun p => p.expr.value = none := by
  unfold property
  refine reads_start.bind fun _ _ => (reads_eatSign_other (by simp)).ite_false ?_
  refine (reads_eatSign_other (by simp)).ite_false ?_
  refine (reads_isWord_other (by simp)).bind fun a ha => reads_standsAlone.bind fun _ _ =>
    reads_peek.bind fun _ _ => ?_
  rw [ha, Bool.false_and, Bool.false_and, if_neg (by decide)]
  refine (reads_isWord_other (by simp)).bind fun a ha => ?_
  refine (reads_isWord_other (by simp)).bind fun a' ha' => reads_standsAlone.bind fun _ _ => ?_
  rw [ha, ha', Bool.or_self, Bool.false_and, if_neg (by decide)]
  refine reads_propertyName_string.bind fun name hname => ?_
  rw [hname]
  exact reads_eatSign.ite_true (h.bind fun e he => reads_pure he)

/-- The tokens of the fields of an object whose names and values are strings. -/
def fieldTokens : List (String × String) → List Seen
  | [] => []
  | [(k, v)] => [(.string k, false), (.sign ":", false), (.string v, false)]
  | (k, v) :: f :: rest =>
    (.string k, false) :: (.sign ":", false) :: (.string v, false) :: (.sign ",", false) ::
      fieldTokens (f :: rest)

theorem exists_fieldTokens_cons (field : String × String) (fields : List (String × String)) :
    ∃ more, fieldTokens (field :: fields) = (.string field.1, false) :: more := by
  cases fields <;> exact ⟨_, rfl⟩

theorem reads_properties {fields : List (String × String)} (hfuel : fields.length < fuel)
    (h : ∀ raw l b ts, l.closes = true →
      Reads st g.assignment ((.string raw, false) :: (l, b) :: ts) ((l, b) :: ts)
        fun e => e.value = none) :
    Reads st (g.properties fuel) (fieldTokens fields ++ (.sign "\x7d", b) :: (l', b') :: ts)
      ((l', b') :: ts) fun r => ∀ p ∈ r.1, ∀ q ∈ p, q.expr.value = none := by
  induction fields generalizing fuel with
  | nil =>
    obtain ⟨fuel, rfl⟩ := Nat.exists_eq_add_one.2 (Nat.zero_lt_of_lt hfuel)
    exact reads_eatSign.ite_true (reads_pure fun p hp => absurd hp List.not_mem_nil)
  | cons field fields ih =>
    obtain ⟨fuel, rfl⟩ := Nat.exists_eq_add_one.2 (Nat.zero_lt_of_lt hfuel)
    obtain ⟨k, v⟩ := field
    cases fields with
    | nil =>
      refine (reads_eatSign_other (by simp)).ite_false ?_
      refine (reads_property_string (h _ _ _ _ rfl)).bind fun p hp => ?_
      refine reads_eatSign.ite_true (reads_pure ?_)
      intro q hq r hr
      obtain rfl := List.mem_singleton.1 hq
      obtain rfl := Option.mem_some.1 hr
      exact hp
    | cons field fields =>
      have hrest := ih (Nat.lt_of_succ_lt_succ hfuel)
      obtain ⟨more, hmore⟩ := exists_fieldTokens_cons field fields
      rw [hmore, List.cons_append] at hrest
      rw [fieldTokens, hmore]
      refine (reads_eatSign_other (by simp)).ite_false ?_
      refine (reads_property_string (h _ _ _ _ rfl)).bind fun p hp => ?_
      refine (reads_eatSign_other (by decide)).ite_false (reads_start.bind fun _ _ => ?_)
      refine reads_expectSign.bind fun _ _ => (reads_eatSign_other (by simp)).ite_false ?_
      refine hrest.bind fun r hr => reads_pure ?_
      intro q hq x hx
      rcases List.mem_cons.1 hq with rfl | hq
      · obtain rfl := Option.mem_some.1 hx
        exact hp
      · exact hr q hq x hx

theorem reads_object {fields : List (String × String)} (hfuel : fields.length < g.fuel)
    (h : ∀ st raw l b ts, l.closes = true →
      Reads st g.assignment ((.string raw, false) :: (l, b) :: ts) ((l, b) :: ts)
        fun e => e.value = none) :
    Reads st g.object
      ((.sign "\x7b", b₀) :: (fieldTokens fields ++ (.sign "\x7d", false) :: (l', b') :: ts))
      ((l', b') :: ts) fun e => e.Is .object := by
  obtain ⟨first, more, hmore⟩ : ∃ first more,
      fieldTokens fields ++ (.sign "\x7d", false) :: (l', b') :: ts = first :: more := by
    cases fields with
    | nil => exact ⟨_, _, rfl⟩
    | cons field fields =>
      obtain ⟨more, hmore⟩ := exists_fieldTokens_cons field fields
      rw [hmore]
      exact ⟨_, _, rfl⟩
  have hfields : Reads { st with allowIn := true } (g.properties g.fuel)
      (fieldTokens fields ++ (.sign "\x7d", false) :: (l', b') :: ts) ((l', b') :: ts) _ :=
    reads_properties hfuel (h _)
  rw [hmore] at hfields ⊢
  refine reads_start.bind fun _ _ => reads_expectSign.bind fun _ _ => ?_
  refine (reads_within hfields).bind fun r hr => reads_pure ⟨rfl, ?_⟩
  rw [literal]
  dsimp only
  rw [List.findSome?_eq_none_iff]
  intro e he
  obtain ⟨p, hp, hpe⟩ := List.mem_filterMap.1 he
  obtain ⟨q, rfl, rfl⟩ := Option.map_eq_some_iff.1 hpe
  exact hr _ hp q rfl

/-! ### Calls -/

def AreValues (parts : List Part) : Prop := ∀ p ∈ parts, p.expr.value = none

/-- The first argument, up to the sign behind it. -/
theorem reads_argument {β : Type} {R : β → Prop} {f : Part → Reader β}
    (hspread : l ≠ .sign "...") (h : Reads st g.assignment ((l, b) :: ts) ts' Q)
    (hrest : ∀ e, Q e → Reads st (f ⟨e, false⟩) ts' ts'' R) :
    Reads st (do
      let s ← start
      let part ← if ← eatSign "..." then
          pure (Part.ofSpread s (← g.assignment) false)
        else pure ⟨← g.assignment, false⟩
      f part) ((l, b) :: ts) ts'' R := by
  refine reads_start.bind fun _ _ => (reads_eatSign_other hspread).ite_false ?_
  refine h.bind fun e he => ?_
  have hpart : Reads st (pure ⟨e, false⟩ : Reader Part) ts' ts' (· = ⟨e, false⟩) := reads_pure rfl
  exact hpart.bind fun p hp => hp ▸ hrest e he

/-- An argument alone. -/
theorem reads_argumentParts_one (hclose : l ≠ .sign ")") (hspread : l ≠ .sign "...")
    (h : Reads st g.assignment ((l, b) :: ts) ((.sign ")", b') :: (l', b'') :: ts') Q) :
    Reads st (g.argumentParts (fuel + 1)) ((l, b) :: ts) ((l', b'') :: ts')
      fun r => ∃ e, r = ([⟨e, false⟩], none) ∧ Q e := by
  rw [argumentParts]
  refine (reads_eatSign_other hclose).ite_false (reads_argument hspread h fun e he => ?_)
  exact reads_eatSign.ite_true (reads_pure ⟨e, rfl, he⟩)

theorem reads_argumentParts_last (hclose : l ≠ .sign ")") (hspread : l ≠ .sign "...")
    (h : Reads st g.assignment ((l, b) :: ts) ((.sign ")", b') :: (l', b'') :: ts')
      fun e => e.value = none) :
    Reads st (g.argumentParts (fuel + 1)) ((l, b) :: ts) ((l', b'') :: ts') (AreValues ·.1) := by
  refine (reads_argumentParts_one hclose hspread h).imp ?_
  rintro _ ⟨e, rfl, he⟩ q hq
  rwa [List.mem_singleton.1 hq]

theorem reads_argumentParts_cons (hclose : l ≠ .sign ")") (hspread : l ≠ .sign "...")
    (hclose' : l' ≠ .sign ")")
    (h : Reads st g.assignment ((l, b) :: ts) ((.sign ",", b') :: (l', b'') :: ts')
      fun e => e.value = none)
    (hrest : Reads st (g.argumentParts fuel) ((l', b'') :: ts') ts'' (AreValues ·.1)) :
    Reads st (g.argumentParts (fuel + 1)) ((l, b) :: ts) ts'' (AreValues ·.1) := by
  rw [argumentParts]
  refine (reads_eatSign_other hclose).ite_false (reads_argument hspread h fun e he => ?_)
  refine (reads_eatSign_other (by decide)).ite_false (reads_start.bind fun _ _ => ?_)
  refine reads_expectSign.bind fun _ _ => (reads_eatSign_other hclose').ite_false ?_
  refine hrest.bind fun r hr => reads_pure fun q hq => ?_
  rcases List.mem_cons.1 hq with rfl | hq
  · exact he
  · exact hr q hq

theorem reads_useParts {parts : List Part} (h : AreValues parts) :
    Reads st (parts.forM fun p => useValue p.expr) ts ts fun _ => True := by
  induction parts with
  | nil => exact reads_pure trivial
  | cons p parts ih =>
    refine (reads_useValue (h p List.mem_cons_self)).bind fun _ _ => ?_
    exact ih fun q hq => h q (List.mem_cons_of_mem p hq)

theorem reads_arguments
    (h : Reads { st with allowIn := true } (g.argumentParts g.fuel) ((l, b) :: ts) ts'
      (AreValues ·.1)) :
    Reads st g.arguments ((.sign "(", b₀) :: (l, b) :: ts) ts' fun _ => True :=
  reads_expectSign.bind fun _ _ => (reads_within h).bind fun _ hr => reads_useParts hr

/-! ### The grammar -/

theorem fuel_grammar (fuel depth : Nat) : (grammar fuel depth).fuel = fuel := by
  cases depth <;> rfl

/-- An operand is a condition already. -/
theorem reads_conditional_grammar {depth : Nat} (hfuel : 0 < fuel) (hl : l.startsOperand = true)
    (hl' : l'.closesOperand = true) (hl'' : l' ≠ .sign "?")
    (h : Reads st (grammar fuel depth).operand ((l, b) :: ts) ((l', b') :: ts') Q) :
    Reads st (grammar fuel (depth + 1)).conditional ((l, b) :: ts) ((l', b') :: ts') Q :=
  reads_conditional hl'' (reads_binary (by rwa [fuel_grammar]) hl' (reads_unaryExpression hl hl' h))

/-- An operand is an expression already. -/
theorem reads_assignment_grammar {depth : Nat} (hfuel : 0 < fuel) (hl : l.startsOperand = true)
    (hl' : l'.closes = true)
    (h : Reads st (grammar fuel depth).operand ((l, b) :: ts) ((l', b') :: ts') Q) :
    Reads st (grammar fuel (depth + 2)).assignment ((l, b) :: ts) ((l', b') :: ts') Q :=
  reads_assignmentExpression_end (Lexeme.ne_of_apply hl (by decide)) hl'
    (reads_conditional_grammar hfuel hl (Lexeme.closesOperand_of_closes hl')
      (Lexeme.ne_of_apply hl' (by decide)) h)

theorem reads_assignment_string {depth : Nat} {raw : String} (hfuel : 0 < fuel)
    (hl : l.closes = true) :
    Reads st (grammar fuel (depth + 2)).assignment ((.string raw, b₀) :: (l, b) :: ts) ((l, b) :: ts)
      fun e => e.value = none := by
  refine (reads_assignment_grammar hfuel rfl hl ?_).imp fun e (he : e.Is .other) => he.value
  exact reads_operand_alone (by rwa [fuel_grammar]) rfl (Lexeme.closesOperand_of_closes hl)
    reads_primary_string (by decide)

/-- The tokens of a member of `this` by a string. -/
def accessTokens (afterBreak : Bool) (raw : String) : List Seen :=
  [(.word "this" false, afterBreak), (.sign "[", false), (.string raw, false), (.sign "]", false)]

theorem reads_operand_access {depth : Nat} {raw : String} (hfuel : 1 < fuel)
    (hl : l.closesOperand = true) :
    Reads st (grammar fuel (depth + 2)).operand (accessTokens b₀ raw ++ (l, b) :: ts) ((l, b) :: ts)
      fun e => e.IsTarget := by
  refine reads_operand rfl reads_primary_this fun e he => ⟨by rw [he.form]; decide, ?_⟩
  obtain ⟨fuel, rfl⟩ : ∃ n, fuel = n + 2 := Nat.exists_eq_add_of_le' hfuel
  rw [fuel_grammar]
  refine reads_following_indexed (reads_innerExpression (by rw [fuel_grammar]; omega) (by decide)
    (reads_assignment_string (by omega) rfl)) ?_
  exact (reads_following_end hl).imp fun e' heq => heq ▸ he.reached (by decide)

theorem reads_assignment_object {depth : Nat} {fields : List (String × String)}
    (hfuel : fields.length < fuel) (hl : l.closes = true) :
    Reads st (grammar fuel (depth + 4)).assignment
      ((.sign "\x7b", b₀) :: (fieldTokens fields ++ (.sign "\x7d", false) :: (l, b) :: ts))
      ((l, b) :: ts) fun e => e.value = none := by
  have hpos : 0 < fuel := Nat.zero_lt_of_lt hfuel
  have hobject : Reads st (grammar fuel (depth + 2)).primary
      ((.sign "\x7b", b₀) :: (fieldTokens fields ++ (.sign "\x7d", false) :: (l, b) :: ts))
      ((l, b) :: ts) fun e => e.Is .object :=
    reads_primary_object (reads_object (by rwa [fuel_grammar]) fun st raw l b ts hl =>
      reads_assignment_string hpos hl)
  refine (reads_assignment_grammar hpos rfl hl ?_).imp fun e (he : e.Is .object) => he.value
  exact reads_operand_alone (by rwa [fuel_grammar]) rfl (Lexeme.closesOperand_of_closes hl) hobject
    (by decide)

/-- A value is assigned to a member. -/
theorem reads_assignment_member {depth : Nat} (hfuel : 0 < fuel) (hl : l.startsOperand = true)
    (htarget : Reads st (grammar fuel (depth + 2)).operand ((l, b) :: ts)
      ((.sign "=", b₀) :: (l', b') :: ts') Expr.IsTarget)
    (h : Reads st (grammar fuel (depth + 3)).assignment ((l', b') :: ts') ts''
      fun e => e.value = none) :
    Reads st (grammar fuel (depth + 4)).assignment ((l, b) :: ts) ts'' fun e => e.Is .assignment := by
  refine reads_assignmentExpression (Lexeme.ne_of_apply hl (by decide))
    (reads_conditional_grammar hfuel hl rfl (by decide) htarget) fun e he => ?_
  rw [he.form, if_neg (by decide)]
  exact reads_assignmentTo_equals he.target h

/-- A call of an operand. -/
theorem reads_operand_call {depth : Nat} (hfuel : 1 < fuel) (hl : l.startsOperand = true)
    (hl' : l'.closesOperand = true) (hform : form ≠ .arrow ∧ form ≠ .chain)
    (h : Reads st (grammar fuel depth).primary ((l, b) :: ts) ((.sign "(", b₀) :: ts')
      fun e => e.Is form)
    (harguments : Reads st (grammar fuel depth).arguments ((.sign "(", b₀) :: ts')
      ((l', b') :: ts'') fun _ => True) :
    Reads st (grammar fuel depth).operand ((l, b) :: ts) ((l', b') :: ts'') fun e => e.Is .call := by
  obtain ⟨fuel, rfl⟩ : ∃ n, fuel = n + 2 := Nat.exists_eq_add_of_le' hfuel
  refine reads_operand hl h fun e he => ⟨by rw [he.form]; exact hform.1, ?_⟩
  rw [fuel_grammar]
  refine reads_following_call harguments ?_
  exact (reads_following_end hl').imp fun e' heq => heq ▸ he.called hform.2

/-- A call of an operand's member. -/
theorem reads_operand_method {depth : Nat} {m : String} (hfuel : 2 < fuel)
    (hl : l.startsOperand = true) (hl' : l'.closesOperand = true)
    (hform : form ≠ .arrow ∧ form ≠ .chain)
    (h : Reads st (grammar fuel depth).primary ((l, b) :: ts)
      ((.sign ".", b₀) :: (.word m false, b₁) :: (.sign "(", b'') :: ts') fun e => e.Is form)
    (harguments : Reads st (grammar fuel depth).arguments ((.sign "(", b'') :: ts')
      ((l', b') :: ts'') fun _ => True) :
    Reads st (grammar fuel depth).operand ((l, b) :: ts) ((l', b') :: ts'') fun e => e.Is .call := by
  obtain ⟨fuel, rfl⟩ : ∃ n, fuel = n + 3 := Nat.exists_eq_add_of_le' hfuel
  refine reads_operand hl h fun e he => ⟨by rw [he.form]; exact hform.1, ?_⟩
  rw [fuel_grammar]
  refine reads_following_member (reads_following_call harguments ?_)
  have hcalled := (he.reached hform.2).toIs.called (by decide)
  exact (reads_following_end hl').imp fun e' heq => heq ▸ hcalled

/-- The negation of a member of `this`. -/
theorem reads_assignment_not {depth : Nat} {raw : String} (hfuel : 1 < fuel) (hl : l.closes = true) :
    Reads st (grammar fuel (depth + 5)).assignment
      ((.sign "!", b') :: (accessTokens b₀ raw ++ (l, b) :: ts)) ((l, b) :: ts)
      fun e => e.value = none := by
  have hoperand := Lexeme.closesOperand_of_closes hl
  have hmember : Reads st (grammar fuel (depth + 3)).unary (accessTokens b₀ raw ++ (l, b) :: ts)
      ((l, b) :: ts) fun e => e.value = none :=
    (reads_unaryExpression rfl hoperand (reads_operand_access hfuel hoperand)).imp
      fun e he => he.value
  have hnot : Reads st (grammar fuel (depth + 4)).conditional
      ((.sign "!", b') :: (accessTokens b₀ raw ++ (l, b) :: ts)) ((l, b) :: ts) fun e => e.Is .unary :=
    reads_conditional (Lexeme.ne_of_apply hl (by decide))
      (reads_binary (by rw [fuel_grammar]; omega) hoperand (reads_unaryExpression_not hmember))
  refine Reads.imp (reads_assignmentExpression_operation (by decide) hnot ?_)
    fun e (he : e.Is .unary) => he.value
  intro e he
  rw [he.form]
  rfl

end Grammar

end SingleFile.Script
