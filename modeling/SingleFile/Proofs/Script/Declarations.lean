import SingleFile.Proofs.Script.Patterns

/-!
# What exported declarations bind

Behind the keyword `export` stands a declaration of variables, of a function or of a class
(`Declaration.StartsAt`), and the names that the parser gives for it are those that it binds: for
variables the names of their patterns, one variable after the other.  So it is with the name of a
default export (`Item.Written`, `written_of_parse`).
-/

namespace SingleFile.Script

open Reader Reading Cursor

/-! ### Declarations -/

/-- A declaration of variables, of a function or of a class. -/
inductive Declaration where
  | variables (patterns : List Pattern)
  | function (n : Name)
  | classNamed (n : Name)

/-- The names that a declaration binds. -/
def Declaration.names : Declaration → List Name
  | .variables ps => ps.flatMap Pattern.names
  | .function n | .classNamed n => [n]

/-- A variable stands between two places, with its value or without one. -/
inductive Pattern.Declared (p : Pattern) (a : Place) : Place → Prop
  | plain {b : Place} (pattern : p.Reads a b) (noValue : ¬ b.At "=") : Pattern.Declared p a b
  | value {b c : Place} (pattern : p.Reads a b) (sign : b.At "=") (value : b.next.Value c) :
      Pattern.Declared p a c

/-- Variables stand between two places, with commas between them, as many as there are.  The list may
break off before a semicolon, which is noted as a problem. -/
inductive Variables : List Pattern → Place → Place → Prop
  | nil {a : Place} (sign : a.At ";") : Variables [] a a
  | last {p : Pattern} {a b : Place} (declared : p.Declared a b) (ends : ¬ b.At ",") :
      Variables [p] a b
  | more {p : Pattern} {ps : List Pattern} {a b c : Place} (declared : p.Declared a b)
      (comma : b.At ",") (behind : Variables ps b.next c) : Variables (p :: ps) a c

/-- A declaration starts at a place: with its keyword and all that it binds. -/
inductive Declaration.StartsAt : Declaration → Place → Prop
  | variables {ps : List Pattern} {a b : Place}
      (keyword : a.Keyword "var" ∨ a.Keyword "let" ∨ a.Keyword "const")
      (list : Variables ps a.next.withIn b) : Declaration.StartsAt (.variables ps) a
  | function {n : Name} {a b c : Place} (async : b = a ∨ a.Keyword "async" ∧ b = a.next)
      (keyword : b.Keyword "function") (star : c = b.next ∨ b.next.At "*" ∧ c = b.next.next)
      (name : c.Word n) : Declaration.StartsAt (.function n) a
  | classNamed {n : Name} {a : Place} (keyword : a.Keyword "class") (name : a.next.Word n) :
      Declaration.StartsAt (.classNamed n) a

/-- A name is that of a declaration which starts at a place, or there is none where none is
required. -/
def Place.Declares (required : Bool) (a : Place) : Option Name → Prop
  | none => required = false
  | some n => ∃ d : Declaration, d.StartsAt a ∧ d.names = [n]

/-- A function or a class with a name starts at a place. -/
def Place.DeclaresNamed (n : Name) (a : Place) : Prop :=
  (Declaration.function n).StartsAt a ∨ (Declaration.classNamed n).StartsAt a

/-! ### Readers of declarations -/

section Readers

variable {s t : Reading} {names : List Name} {fuel depth : Nat}

theorem place_of_useValue {e : Expr} {u : Unit} (h : Grammar.useValue e s = .ok u t) :
    t.place = s.place := by
  unfold Grammar.useValue at h
  cases hvalue : e.value with
  | some offset =>
    rw [hvalue] at h
    cases h
    rfl
  | none =>
    rw [hvalue] at h
    cases h
    rfl

/-- A variable is read. -/
theorem exists_variable {constant hasValue : Bool}
    (h : (grammar fuel depth).variableOne constant false s = .ok (names, hasValue) t) :
    ∃ p : Pattern, p.Declared s.place t.place ∧ p.names = names := by
  replace h := start_bind_eq_ok h
  replace h := token_bind_eq_ok h
  obtain ⟨names', s₁, hnames, h⟩ := bind_eq_ok h
  obtain ⟨p, hreads, rfl⟩ := binds_pattern fuel depth s names' s₁ hnames
  obtain ⟨isOf, -, h⟩ := isWord_bind_eq_ok h
  obtain ⟨isIn, -, h⟩ := isWord_bind_eq_ok h
  rw [if_neg (by simp)] at h
  rcases eatSign_bind_eq_ok h with ⟨hequals, s₂, hplace, h⟩ | ⟨hnone, h⟩
  · obtain ⟨e, s₃, hvalue, h⟩ := bind_eq_ok h
    obtain ⟨u, s₄, huse, h⟩ := bind_eq_ok h
    cases h
    refine ⟨p, .value hreads hequals ?_, rfl⟩
    rw [← hplace, place_of_useValue huse]
    exact ⟨fuel, depth, s₂, e, s₃, hvalue, rfl, rfl⟩
  · have hend : names = p.names ∧ t.place = s₁.place := by
      rw [if_neg Bool.false_ne_true] at h
      cases constant with
      | true =>
        cases h
        exact ⟨rfl, rfl⟩
      | false =>
        rw [if_neg Bool.false_ne_true] at h
        replace h := throwIf_bind_eq_ok h
        cases h
        exact ⟨rfl, rfl⟩
    obtain ⟨rfl, ht⟩ := hend
    rw [ht]
    exact ⟨p, .plain hreads hnone, rfl⟩

/-- The variables of a declaration are read. -/
theorem exists_variables {keyword n : Nat} {constant : Bool} {vars : List Grammar.Variable}
    (h : (grammar fuel depth).variableList keyword constant false n s = .ok vars t) :
    ∃ ps, Variables ps s.place t.place ∧ ps.flatMap Pattern.names = (vars.map (·.names)).flatten := by
  induction n generalizing s vars with
  | zero => cases h
  | succ n ih =>
    unfold Grammar.variableList at h
    obtain ⟨found, hsign, h⟩ := isSign_bind_eq_ok h
    cases found with
    | true =>
      cases h
      exact ⟨[], .nil (hsign.1 rfl), rfl⟩
    | false =>
      rw [if_neg Bool.false_ne_true] at h
      replace h := start_bind_eq_ok h
      obtain ⟨⟨names, hasValue⟩, s₁, hfirst, h⟩ := bind_eq_ok h
      obtain ⟨p, hdeclared, rfl⟩ := exists_variable hfirst
      rcases eatSign_bind_eq_ok h with ⟨hcomma, s₂, hplace, h⟩ | ⟨hnone, h⟩
      · obtain ⟨vars', s₃, hmore, h⟩ := bind_eq_ok h
        cases h
        obtain ⟨ps, hps, hnames⟩ := ih hmore
        refine ⟨p :: ps, .more hdeclared hcomma (hplace ▸ hps), ?_⟩
        rw [List.flatMap_cons, hnames]
        rfl
      · cases h
        exact ⟨[p], .last hdeclared hnone, rfl⟩

/-- A declaration of variables is read behind its keyword. -/
theorem exists_variables_of_variableStatement
    (h : (grammar fuel depth).variableStatement s = .ok names t) :
    ∃ ps b, Variables ps s.place.next.withIn b ∧ ps.flatMap Pattern.names = names := by
  obtain ⟨vars, s₁, hvars, h⟩ := bind_eq_ok h
  obtain ⟨ps, b, hps, hnames⟩ : ∃ ps b, Variables ps s.place.next.withIn b ∧
      ps.flatMap Pattern.names = (vars.map (·.names)).flatten := by
    replace hvars := token_bind_eq_ok hvars
    obtain ⟨s₂, hplace, hvars⟩ := bump_bind_eq_ok hvars
    obtain ⟨t', hlist⟩ := within_eq_ok hvars
    obtain ⟨ps, hps, hnames⟩ := exists_variables hlist
    rw [← hplace]
    exact ⟨ps, t'.place, hps, hnames⟩
  refine ⟨ps, b, hps, hnames.trans ?_⟩
  obtain ⟨ended, s₂, -, h⟩ := bind_eq_ok h
  cases ended with
  | true =>
    cases h
    rfl
  | false =>
    obtain ⟨_, s₃, -, h⟩ := bind_eq_ok h
    obtain ⟨_, s₄, -, h⟩ := bind_eq_ok h
    obtain ⟨_, s₅, -, h⟩ := bind_eq_ok h
    obtain ⟨_, s₆, -, h⟩ := bind_eq_ok h
    cases h
    rfl

/-- A name is read, unless there is none. -/
theorem word_of_named {anonymous : Bool} {p : Reader Unit} {name : Option Name} (h : (do
    let name ← if anonymous then pure none else some <$> bindingName
    p
    return name : Reader (Option Name)) s = .ok name t) :
    (name = none ∧ anonymous = true) ∨ ∃ n, name = some n ∧ s.place.Word n := by
  cases anonymous with
  | true =>
    obtain ⟨name', s₁, hname, h⟩ := bind_eq_ok h
    cases hname
    obtain ⟨_, s₂, -, h⟩ := bind_eq_ok h
    cases h
    exact .inl ⟨rfl, rfl⟩
  | false =>
    obtain ⟨name', s₁, hname, h⟩ := bind_eq_ok h
    obtain ⟨_, s₂, -, h⟩ := bind_eq_ok h
    cases h
    obtain ⟨n, s₃, hname, hsome⟩ := bind_eq_ok hname
    cases hsome
    exact .inr ⟨n, rfl, (bindingName_eq_ok hname).1⟩

/-- Where a word is read over or not, the reading goes on. -/
theorem skip_bind_eq_ok {β : Type} {c : Prop} [Decidable c] {f : Unit → Reader β} {b : β}
    (h : (if c then bump >>= f else f ()) s = .ok b t) : ∃ s₁, f () s₁ = .ok b t := by
  split at h
  · obtain ⟨s₁, -, h⟩ := bump_bind_eq_ok h
    exact ⟨s₁, h⟩
  · exact ⟨s, h⟩

/-- Whether `let` starts a declaration is asked without moving. -/
theorem letDeclares_bind_eq_ok {β : Type} {f : Bool → Reader β} {b : β}
    (h : (Grammar.letDeclares >>= f) s = .ok b t) : ∃ found, f found s = .ok b t := by
  obtain ⟨found, s₁, hdeclares, h⟩ := bind_eq_ok h
  obtain ⟨next, s₂, hpeek, hdeclares⟩ := bind_eq_ok hdeclares
  cases hpeek
  have hstay : s₁ = s := by
    generalize (readToken false s.token.stop s.rest).1.lexeme = lexeme at hdeclares
    cases lexeme <;> (cases hdeclares; rfl)
  exact ⟨found, hstay ▸ h⟩

/-- Where a function follows `async`, that is a keyword. -/
theorem asyncFunctionNext_bind_eq_ok {β : Type} {f : Bool → Reader β} {b : β}
    (h : (Grammar.asyncFunctionNext >>= f) s = .ok b t) :
    ∃ found, (found = true → s.place.Keyword "async") ∧ f found s = .ok b t := by
  obtain ⟨found, s₁, hasync, h⟩ := bind_eq_ok h
  obtain ⟨isAsync, hword, hasync⟩ := isWord_bind_eq_ok hasync
  cases isAsync with
  | true =>
    cases hasync
    exact ⟨_, fun _ => hword.1 rfl, h⟩
  | false =>
    cases hasync
    exact ⟨false, Bool.noConfusion, h⟩

/-- A function is read, from `async` or its keyword on. -/
theorem starts_of_functionDeclaration {required async : Bool} {name : Option Name} {a : Place}
    (ha : s.place = a ∨ a.Keyword "async" ∧ s.place = a.next)
    (h : (grammar fuel depth).functionDeclaration required async s = .ok name t) :
    (name = none ∧ required = false) ∨ ∃ n, name = some n ∧ (Declaration.function n).StartsAt a := by
  obtain ⟨hkeyword, s₁, hplace, h⟩ := expectWord_bind_eq_ok h
  have hrest {s₂ : Reading} {generator : Bool}
      (hstar : s₂.place = s.place.next ∨ s.place.next.At "*" ∧ s₂.place = s.place.next.next)
      (h : (do
        let name ← if !required && (← isSign "(") then pure none else some <$> bindingName
        (grammar fuel depth).functionRest async generator false
        return name : Reader (Option Name)) s₂ = .ok name t) :
      (name = none ∧ required = false) ∨
        ∃ n, name = some n ∧ (Declaration.function n).StartsAt a := by
    obtain ⟨opens, -, h⟩ := isSign_bind_eq_ok h
    rcases word_of_named h with ⟨rfl, hanonymous⟩ | ⟨n, rfl, hword⟩
    · cases required with
      | true => cases hanonymous
      | false => exact .inl ⟨rfl, rfl⟩
    · exact .inr ⟨n, rfl, .function ha hkeyword hstar hword⟩
  rcases eatSign_bind_eq_ok h with ⟨hstar, s₂, hnext, h⟩ | ⟨-, h⟩
  · rw [hplace] at hstar hnext
    exact hrest (.inr ⟨hstar, hnext⟩) h
  · exact hrest (.inl hplace) h

/-- A class is read from its keyword on. -/
theorem starts_of_classDeclaration {required : Bool} {name : Option Name}
    (h : (grammar fuel depth).classDeclaration required s = .ok name t) :
    (name = none ∧ required = false) ∨
      ∃ n, name = some n ∧ (Declaration.classNamed n).StartsAt s.place := by
  obtain ⟨hkeyword, s₁, hplace, h⟩ := expectWord_bind_eq_ok h
  have hrest {anonymous : Bool} (hrequired : anonymous = true → required = false)
      (hname : (name = none ∧ anonymous = true) ∨ ∃ n, name = some n ∧ s₁.place.Word n) :
      (name = none ∧ required = false) ∨
        ∃ n, name = some n ∧ (Declaration.classNamed n).StartsAt s.place := by
    rcases hname with ⟨rfl, hanonymous⟩ | ⟨n, rfl, hword⟩
    · exact .inl ⟨rfl, hrequired hanonymous⟩
    · exact .inr ⟨n, rfl, .classNamed hkeyword (hplace ▸ hword)⟩
  cases required with
  | true =>
    obtain ⟨anonymous, s₂, hnamed, h⟩ := bind_eq_ok h
    cases hnamed
    exact hrest Bool.noConfusion (word_of_named h)
  | false =>
    obtain ⟨opens, -, h⟩ := isSign_bind_eq_ok h
    obtain ⟨extends_, -, h⟩ := isWord_bind_eq_ok h
    exact hrest (fun _ => rfl) (word_of_named h)

end Readers

/-! ### Export clauses -/

namespace Place

def StringAt (a : Place) (span : Span) : Prop :=
  (∃ raw, a.token.lexeme = .string raw) ∧ span = ⟨a.token.start, a.token.stop⟩

/-- The name of an export stands at a place: any word, or a string. -/
def ClauseName (a : Place) (span : Span) : Prop := (∃ n, a.Word n ∧ n.span = span) ∨ a.StringAt span

/-- What is exported comes from another module, or from this one. -/
def From (a : Place) : Option Span → Prop
  | some source => a.Keyword "from" ∧ a.next.StringAt source
  | none => ¬ a.Keyword "from"

end Place

/-- A part of an export clause stands between two places. -/
inductive Specifier : ExportBinding → Place → Place → Prop
  | own {inner : Span} {a : Place} (name : a.ClauseName inner) (plain : ¬ a.next.Keyword "as") :
      Specifier (.named inner none) a a.next
  | renamed {inner outer : Span} {a : Place} (name : a.ClauseName inner)
      (keyword : a.next.Keyword "as") (other : a.next.next.ClauseName outer) :
      Specifier (.named inner (some outer)) a a.next.next.next

/-- The parts of an export clause stand between two places, up to the closing brace. -/
inductive Specifiers : List ExportBinding → Place → Place → Prop
  | nil {a : Place} (closes : a.At "\x7d") : Specifiers [] a a
  | last {b : ExportBinding} {a c : Place} (part : Specifier b a c) (closes : c.At "\x7d") :
      Specifiers [b] a c
  | more {b : ExportBinding} {bs : List ExportBinding} {a c d : Place} (part : Specifier b a c)
      (comma : c.At ",") (behind : Specifiers bs c.next d) : Specifiers (b :: bs) a d

/-- The parts of an export clause have names. -/
theorem Specifiers.named {bs : List ExportBinding} {a c : Place} (h : Specifiers bs a c) :
    ∀ b ∈ bs, ∃ inner outer, b = .named inner outer := by
  have hnamed {b : ExportBinding} {a c : Place} (h : Specifier b a c) :
      ∃ inner outer, b = .named inner outer := by
    cases h <;> exact ⟨_, _, rfl⟩
  induction h with
  | nil closes => simp
  | last part closes => simpa using hnamed part
  | more part comma behind ih => exact List.forall_mem_cons.2 ⟨hnamed part, ih⟩

/-- A list of exports stands at a place: a clause, or another module as a whole. -/
inductive Place.Lists : Place → List ExportBinding → Option Span → Prop
  | clause {bs : List ExportBinding} {source : Option Span} {a b : Place} (opens : a.At "\x7b")
      (parts : Specifiers bs a.next b) (behind : b.next.From source) : Place.Lists a bs source
  | whole {outer source : Span} {a : Place} (star : a.At "*") (keyword : a.next.Keyword "as")
      (name : a.next.next.ClauseName outer) (behind : a.next.next.next.From (some source)) :
      Place.Lists a [.whole outer] (some source)

section Clauses

variable {s t : Reading} {fuel depth : Nat}

theorem anyName_eq_ok {n : Name} (h : anyName s = .ok n t) :
    s.place.Word n ∧ t.place = s.place.next := by
  replace h := token_bind_eq_ok h
  generalize hlexeme : s.token.lexeme = lexeme at h
  cases lexeme with
  | word w escaped =>
    obtain ⟨s₁, hplace, h⟩ := bump_bind_eq_ok h
    cases h
    exact ⟨⟨⟨escaped, hlexeme⟩, rfl⟩, hplace⟩
  | _ => cases h

theorem clauseName_eq_ok {name : Grammar.ClauseName} (h : Grammar.clauseName s = .ok name t) :
    s.place.ClauseName name.span ∧ t.place = s.place.next := by
  replace h := token_bind_eq_ok h
  generalize hlexeme : s.token.lexeme = lexeme at h
  cases lexeme with
  | string raw =>
    obtain ⟨s₁, hplace, h⟩ := bump_bind_eq_ok h
    cases h
    exact ⟨.inr ⟨⟨raw, hlexeme⟩, rfl⟩, hplace⟩
  | _ =>
    obtain ⟨n, s₁, hname, h⟩ := bind_eq_ok h
    cases h
    obtain ⟨hword, hplace⟩ := anyName_eq_ok hname
    exact ⟨.inl ⟨n, hword, rfl⟩, hplace⟩

/-- The string after `from` is read. -/
theorem from_of_fromClause {source : Span}
    (h : (grammar fuel depth).fromClause s = .ok source t) : s.place.From (some source) := by
  obtain ⟨hkeyword, s₁, hplace, h⟩ := expectWord_bind_eq_ok h
  obtain ⟨source', s₂, hsource, h⟩ := bind_eq_ok h
  obtain ⟨_, s₃, -, h⟩ := bind_eq_ok h
  obtain ⟨_, s₄, -, h⟩ := bind_eq_ok h
  cases h
  refine ⟨hkeyword, hplace ▸ ?_⟩
  replace hsource := token_bind_eq_ok hsource
  generalize hlexeme : s₁.token.lexeme = lexeme at hsource
  cases lexeme with
  | string raw =>
    cases hsource
    exact ⟨⟨raw, hlexeme⟩, rfl⟩
  | _ => cases hsource

theorem specifier_of_exportName {name : Grammar.ClauseName} {b : ExportBinding}
    (h : Grammar.exportName s = .ok (name, b) t) : Specifier b s.place t.place := by
  obtain ⟨inner, s₁, hinner, h⟩ := bind_eq_ok h
  obtain ⟨hname, hplace⟩ := clauseName_eq_ok hinner
  rcases eatWord_bind_eq_ok h with ⟨hkeyword, s₂, hnext, h⟩ | ⟨hplain, h⟩
  · obtain ⟨outer, s₃, houter, h⟩ := bind_eq_ok h
    cases h
    obtain ⟨hother, hend⟩ := clauseName_eq_ok houter
    rw [hplace] at hkeyword hnext
    rw [hnext] at hother hend
    rw [hend]
    exact .renamed hname hkeyword hother
  · cases h
    rw [hplace] at hplain ⊢
    exact .own hname hplain

/-- The parts of an export clause are read up to its closing brace. -/
theorem specifiers_of_commaList {n : Nat} {parts : List (Grammar.ClauseName × ExportBinding)}
    (h : commaList "\x7d" Grammar.exportName n s = .ok parts t) :
    Specifiers (parts.map (·.2)) s.place t.place := by
  induction n generalizing s parts with
  | zero => cases h
  | succ n ih =>
    unfold commaList at h
    obtain ⟨closes, hclose, h⟩ := isSign_bind_eq_ok h
    split at h
    · next hfound =>
      cases h
      exact .nil (hclose.1 hfound)
    obtain ⟨⟨name, b⟩, s₁, hfirst, h⟩ := bind_eq_ok h
    have hpart := specifier_of_exportName hfirst
    obtain ⟨ends, hend, h⟩ := isSign_bind_eq_ok h
    split at h
    · next hfound =>
      cases h
      exact .last hpart (hend.1 hfound)
    obtain ⟨hcomma, s₂, hplace, h⟩ := expectSign_bind_eq_ok h
    obtain ⟨more, s₃, hmore, h⟩ := bind_eq_ok h
    cases h
    exact .more hpart hcomma (hplace ▸ ih hmore)

end Clauses

/-! ### Items -/

/-- An export of a script starts at a place, with its keyword. -/
structure Place.OpensExport (script : List Char) (span : Span) (a : Place) : Prop where
  keyword : a.Keyword "export"
  start : a.token.start = span.start
  before : Before ⟨0, script⟩ ⟨a.token.stop, a.rest⟩

/-- What an item exports is written in the script, behind the keyword: a declaration with all names
that it binds, what stands behind `default`, a list with all its parts, or another module. -/
inductive Item.Written (script : List Char) : Item → Prop
  | statement (span : Span) (names : List Name) : Item.Written script (.statement span names)
  | importing (span : Span) (bindings : List ImportBinding) (source : Span) :
      Item.Written script (.importing span bindings source)
  | exportValue {span : Span} {a : Place} (opens : a.OpensExport script span)
      (keyword : a.next.Keyword "default") :
      Item.Written script (.exportValue span a.next.next.token.start)
  | exportDefault {span : Span} {a : Place} {name : Option Name} (opens : a.OpensExport script span)
      (keyword : a.next.Keyword "default") (declares : a.next.next.Declares false name) :
      Item.Written script (.exportDefault span a.next.next.token.start name)
  | exportDeclaration {span : Span} {a : Place} {d : Declaration}
      (opens : a.OpensExport script span) (starts : d.StartsAt a.next) :
      Item.Written script (.exportDeclaration span a.next.token.start d.names)
  | exportNamed {span : Span} {a : Place} {bindings : List ExportBinding} {source : Option Span}
      (opens : a.OpensExport script span) (lists : a.next.Lists bindings source) :
      Item.Written script (.exportNamed span bindings source)
  | exportAll {span source : Span} {a : Place} (opens : a.OpensExport script span)
      (star : a.next.At "*") (behind : a.next.next.From (some source)) :
      Item.Written script (.exportAll span source)

/-- An export starts at a place with its keyword, and what it exports is written behind it. -/
inductive Item.StartsAt (a : Place) : Item → Prop
  | exportValue {span : Span} (start : a.token.start = span.start) (keyword : a.next.Keyword "default") :
      Item.StartsAt a (.exportValue span a.next.next.token.start)
  | exportUnnamed {span : Span} (start : a.token.start = span.start)
      (keyword : a.next.Keyword "default") :
      Item.StartsAt a (.exportDefault span a.next.next.token.start none)
  | exportNamedDefault {span : Span} {n : Name} (start : a.token.start = span.start)
      (keyword : a.next.Keyword "default") (declares : a.next.next.DeclaresNamed n) :
      Item.StartsAt a (.exportDefault span a.next.next.token.start (some n))
  | exportDeclaration {span : Span} {d : Declaration} (start : a.token.start = span.start)
      (starts : d.StartsAt a.next) :
      Item.StartsAt a (.exportDeclaration span a.next.token.start d.names)
  | exportNamed {span : Span} {bindings : List ExportBinding} {source : Option Span}
      (start : a.token.start = span.start) (lists : a.next.Lists bindings source) :
      Item.StartsAt a (.exportNamed span bindings source)
  | exportAll {span source : Span} (start : a.token.start = span.start) (star : a.next.At "*")
      (behind : a.next.next.From (some source)) : Item.StartsAt a (.exportAll span source)

/-- An item that is read from a script: a statement, an import, or an export that starts at a place
there. -/
inductive Item.Found (script : List Char) : Item → Prop
  | statement (span : Span) (names : List Name) : Item.Found script (.statement span names)
  | importing (span : Span) (bindings : List ImportBinding) (source : Span) :
      Item.Found script (.importing span bindings source)
  | exported {item : Item} {a : Place} (stands : a.StandsIn script) (keyword : a.Keyword "export")
      (starts : item.StartsAt a) : Item.Found script item

/-- What starts at a place in a script is written there. -/
theorem Item.StartsAt.written {script : List Char} {a : Place} {item : Item} (h : item.StartsAt a)
    (hkeyword : a.Keyword "export") (ha : Before ⟨0, script⟩ ⟨a.token.stop, a.rest⟩) :
    item.Written script := by
  cases h with
  | exportValue start keyword => exact .exportValue ⟨hkeyword, start, ha⟩ keyword
  | exportUnnamed start keyword => exact .exportDefault ⟨hkeyword, start, ha⟩ keyword rfl
  | exportNamedDefault start keyword declares =>
    refine .exportDefault ⟨hkeyword, start, ha⟩ keyword ?_
    rcases declares with hfunction | hclass
    · exact ⟨_, hfunction, rfl⟩
    · exact ⟨_, hclass, rfl⟩
  | exportDeclaration start starts => exact .exportDeclaration ⟨hkeyword, start, ha⟩ starts
  | exportNamed start lists => exact .exportNamed ⟨hkeyword, start, ha⟩ lists
  | exportAll start star behind => exact .exportAll ⟨hkeyword, start, ha⟩ star behind

theorem Item.Found.written {script : List Char} {item : Item} (h : item.Found script) :
    item.Written script := by
  cases h with
  | statement span names => exact .statement span names
  | importing span bindings source => exact .importing span bindings source
  | exported stands keyword starts => exact starts.written keyword stands.before

section Items

variable {s t : Reading} {item : Item} {fuel depth : Nat}

section Export

variable {a : Place} {k : Nat} (ha : a.token.start = k)

include ha

/-- What is read for a declaration behind the keyword is exported. -/
theorem startsAt_exportDeclaration (hs : s.place = a.next) {p : Reader (List Name)} {s₁ : Reading}
    (hp : ∀ names t, p s₁ = .ok names t → ∃ d : Declaration, d.StartsAt a.next ∧ d.names = names)
    (h : (do
      let names ← p
      return .exportDeclaration (← Grammar.spanFrom k) s.token.start names : Reader Item) s₁ =
        .ok item t) : item.StartsAt a := by
  obtain ⟨names, s₂, hnames, h⟩ := bind_eq_ok h
  obtain ⟨d, hd, rfl⟩ := hp names s₂ hnames
  cases h
  have hstart : s.token.start = a.next.token.start := congrArg (·.token.start) hs
  rw [hstart]
  exact .exportDeclaration ha hd

theorem startsAt_exportDefaultItem (hdefault : a.next.Keyword "default")
    (hs : s.place = a.next.next) (h : (grammar fuel depth).exportDefaultItem k s = .ok item t) :
    item.StartsAt a := by
  have hstart : s.token.start = a.next.next.token.start := congrArg (·.token.start) hs
  have hdeclared {p : Reader (Option Name)} {s₁ : Reading}
      (hp : ∀ name t, p s₁ = .ok name t →
        name = none ∨ ∃ n, name = some n ∧ s.place.DeclaresNamed n)
      (h : (do
        let name ← p
        return .exportDefault (← Grammar.spanFrom k) s.token.start name : Reader Item) s₁ =
          .ok item t) : item.StartsAt a := by
    obtain ⟨name, s₂, hname, h⟩ := bind_eq_ok h
    cases h
    rw [hstart]
    rcases hp name t hname with rfl | ⟨n, rfl, hdeclares⟩
    · exact .exportUnnamed ha hdefault
    · exact .exportNamedDefault ha hdefault (hs ▸ hdeclares)
  have hfunction {s₁ : Reading} {async : Bool}
      (hplace : s₁.place = s.place ∨ s.place.Keyword "async" ∧ s₁.place = s.place.next)
      (name : Option Name) (t : Reading)
      (h : (grammar fuel depth).functionDeclaration false async s₁ = .ok name t) :
      name = none ∨ ∃ n, name = some n ∧ s.place.DeclaresNamed n := by
    rcases starts_of_functionDeclaration hplace h with ⟨hnone, -⟩ | ⟨n, hsome, hstarts⟩
    · exact .inl hnone
    · exact .inr ⟨n, hsome, .inl hstarts⟩
  replace h := start_bind_eq_ok h
  obtain ⟨isClass, -, h⟩ := isWord_bind_eq_ok h
  split at h
  · refine hdeclared (fun name t hclass => ?_) h
    rcases starts_of_classDeclaration hclass with ⟨hnone, -⟩ | ⟨n, hsome, hstarts⟩
    · exact .inl hnone
    · exact .inr ⟨n, hsome, .inr hstarts⟩
  obtain ⟨isFunction, -, h⟩ := isWord_bind_eq_ok h
  split at h
  · exact hdeclared (hfunction (.inl rfl)) h
  obtain ⟨isAsync, hasync, h⟩ := asyncFunctionNext_bind_eq_ok h
  split at h
  · next hfound =>
    obtain ⟨s₁, hplace, h⟩ := bump_bind_eq_ok h
    exact hdeclared (hfunction (.inr ⟨hasync hfound, hplace⟩)) h
  · obtain ⟨_, s₁, -, h⟩ := bind_eq_ok h
    obtain ⟨_, s₂, -, h⟩ := bind_eq_ok h
    cases h
    rw [hstart]
    exact .exportValue ha hdefault

theorem startsAt_exportStarItem (hs : s.place = a.next) (hstar : s.place.At "*")
    (h : (grammar fuel depth).exportStarItem k s = .ok item t) : item.StartsAt a := by
  obtain ⟨s₁, hplace, h⟩ := bump_bind_eq_ok h
  rw [hs] at hstar hplace
  rcases eatWord_bind_eq_ok h with ⟨hkeyword, s₂, hnext, h⟩ | ⟨-, h⟩
  · obtain ⟨name, s₃, hname, h⟩ := bind_eq_ok h
    obtain ⟨source, s₄, hsource, h⟩ := bind_eq_ok h
    cases h
    obtain ⟨hname, hend⟩ := clauseName_eq_ok hname
    have hfrom := from_of_fromClause hsource
    rw [hplace] at hkeyword hnext
    rw [hnext] at hname hend
    rw [hend] at hfrom
    exact .exportNamed ha (.whole hstar hkeyword hname hfrom)
  · obtain ⟨source, s₃, hsource, h⟩ := bind_eq_ok h
    cases h
    exact .exportAll ha hstar (hplace ▸ from_of_fromClause hsource)

theorem startsAt_exportClauseItem (hs : s.place = a.next)
    (h : (grammar fuel depth).exportClauseItem k s = .ok item t) : item.StartsAt a := by
  obtain ⟨hopen, s₁, hplace, h⟩ := expectSign_bind_eq_ok h
  obtain ⟨parts, s₂, hparts, h⟩ := bind_eq_ok h
  have hspecifiers := specifiers_of_commaList hparts
  obtain ⟨-, s₃, hnext, h⟩ := expectSign_bind_eq_ok h
  obtain ⟨listed, hlisted, h⟩ := isWord_bind_eq_ok h
  rw [hs] at hopen hplace
  rw [hplace] at hspecifiers
  cases listed with
  | true =>
    obtain ⟨source, s₄, hsource, h⟩ := bind_eq_ok h
    cases h
    exact .exportNamed ha (.clause hopen hspecifiers (hnext ▸ from_of_fromClause hsource))
  | false =>
    obtain ⟨_, s₄, -, h⟩ := bind_eq_ok h
    obtain ⟨_, s₅, -, h⟩ := bind_eq_ok h
    cases h
    have hnone : s₂.place.next.From none := by
      rw [← hnext]
      exact fun hfrom => Bool.noConfusion (hlisted.2 hfrom)
    exact .exportNamed ha (.clause hopen hspecifiers hnone)

end Export

theorem startsAt_exportItem (h : (grammar fuel depth).exportItem s = .ok item t) :
    item.StartsAt s.place := by
  have hstart : s.place.token.start = s.token.start := rfl
  replace h := start_bind_eq_ok h
  obtain ⟨s₁, hplace, h⟩ := bump_bind_eq_ok h
  replace h := start_bind_eq_ok h
  replace h := token_bind_eq_ok h
  generalize hlexeme : s₁.token.lexeme = lexeme at h
  have hvariables (hword : s₁.place.Keyword "var" ∨ s₁.place.Keyword "let" ∨
      s₁.place.Keyword "const") (names : List Name) (t : Reading)
      (h : (grammar fuel depth).variableStatement s₁ = .ok names t) :
      ∃ d : Declaration, d.StartsAt s.place.next ∧ d.names = names := by
    obtain ⟨ps, b, hps, hnames⟩ := exists_variables_of_variableStatement h
    exact ⟨.variables ps, hplace ▸ .variables hword hps, hnames⟩
  have hnamed {p : Reader (Option Name)} {s₂ : Reading} {d : Name → Declaration}
      (hd : ∀ n, (d n).names = [n])
      (hp : ∀ name t, p s₂ = .ok name t →
        (name = none ∧ true = false) ∨ ∃ n, name = some n ∧ (d n).StartsAt s₁.place)
      (names : List Name) (t : Reading) (h : ((·.toList) <$> p) s₂ = .ok names t) :
      ∃ d : Declaration, d.StartsAt s.place.next ∧ d.names = names := by
    obtain ⟨name, s₃, hname, h⟩ := bind_eq_ok h
    cases h
    rcases hp name t hname with ⟨-, hfalse⟩ | ⟨n, rfl, hstarts⟩
    · cases hfalse
    · exact ⟨d n, hplace ▸ hstarts, hd n⟩
  split at h
  · obtain ⟨s₂, hnext, h⟩ := bump_bind_eq_ok h
    rw [hplace] at hnext
    have hdefault : s₁.place.Keyword "default" := hlexeme
    exact startsAt_exportDefaultItem hstart (hplace ▸ hdefault) hnext h
  · exact startsAt_exportStarItem hstart hplace hlexeme h
  · exact startsAt_exportDeclaration hstart hplace
      (hnamed (fun _ => rfl) fun name t hname => starts_of_classDeclaration hname) h
  · exact startsAt_exportDeclaration hstart hplace
      (hnamed (fun _ => rfl) fun name t hname => starts_of_functionDeclaration (.inl rfl) hname) h
  · exact startsAt_exportDeclaration hstart hplace (hvariables (.inl hlexeme)) h
  · exact startsAt_exportDeclaration hstart hplace (hvariables (.inr (.inr hlexeme))) h
  · obtain ⟨declares, h⟩ := letDeclares_bind_eq_ok h
    split at h
    · exact startsAt_exportDeclaration hstart hplace (hvariables (.inr (.inl hlexeme))) h
    · cases h
  · obtain ⟨isAsync, hasync, h⟩ := asyncFunctionNext_bind_eq_ok h
    split at h
    · next hfound =>
      obtain ⟨s₂, hnext, h⟩ := bump_bind_eq_ok h
      exact startsAt_exportDeclaration hstart hplace (hnamed (fun _ => rfl) fun name t hname =>
        starts_of_functionDeclaration (.inr ⟨hasync hfound, hnext⟩) hname) h
    · cases h
  · exact startsAt_exportClauseItem hstart hplace h

theorem importing_of_importing {p : Reader (List ImportBinding)} {first : List ImportBinding} {n : Nat}
    (h : (do
      let bindings ← p
      let source ← (grammar fuel depth).fromClause
      return .importing (← Grammar.spanFrom n) (first ++ bindings) source : Reader Item) s =
        .ok item t) : ∃ span bindings source, item = .importing span bindings source := by
  obtain ⟨bindings, s₁, -, h⟩ := bind_eq_ok h
  obtain ⟨source, s₂, -, h⟩ := bind_eq_ok h
  cases h
  exact ⟨_, _, _, rfl⟩

theorem importing_of_importRest {isName : Bool} {first : List ImportBinding} {n : Nat}
    (h : (do
      let bindings ← if isName && (← isWord "from") then pure []
        else
          if isName then expectSign ","
          (grammar fuel depth).importClause
      let source ← (grammar fuel depth).fromClause
      return .importing (← Grammar.spanFrom n) (first ++ bindings) source : Reader Item) s =
        .ok item t) : ∃ span bindings source, item = .importing span bindings source := by
  obtain ⟨listed, -, h⟩ := isWord_bind_eq_ok h
  split at h
  · exact importing_of_importing h
  split at h
  · obtain ⟨-, s₁, -, h⟩ := expectSign_bind_eq_ok h
    exact importing_of_importing h
  · exact importing_of_importing h

theorem importing_of_importItem (h : (grammar fuel depth).importItem s = .ok item t) :
    ∃ span bindings source, item = .importing span bindings source := by
  replace h := start_bind_eq_ok h
  obtain ⟨s₁, -, h⟩ := bump_bind_eq_ok h
  replace h := token_bind_eq_ok h
  generalize s₁.token.lexeme = lexeme at h
  cases lexeme with
  | string raw =>
    obtain ⟨source, s₂, -, h⟩ := bind_eq_ok h
    obtain ⟨_, s₃, -, h⟩ := bind_eq_ok h
    obtain ⟨_, s₄, -, h⟩ := bind_eq_ok h
    cases h
    exact ⟨_, _, _, rfl⟩
  | _ =>
    obtain ⟨phase, s₂, -, h⟩ := bind_eq_ok h
    obtain ⟨s₃, h⟩ := skip_bind_eq_ok h
    replace h := token_bind_eq_ok h
    generalize (wordOf s₃.token).isSome = named at h
    cases named with
    | true =>
      obtain ⟨name, s₄, -, h⟩ := bind_eq_ok h
      obtain ⟨first, s₅, -, h⟩ := bind_eq_ok h
      exact importing_of_importRest h
    | false =>
      obtain ⟨first, s₄, -, h⟩ := bind_eq_ok h
      exact importing_of_importRest h

theorem found_moduleItem {script : List Char} (hon : s.OnToken script)
    (h : (grammar fuel depth).moduleItem s = .ok item t) : item.Found script := by
  replace h := start_bind_eq_ok h
  replace h := token_bind_eq_ok h
  generalize hlexeme : s.token.lexeme = lexeme at h
  have hstatement (h : (do
      let names ← (grammar fuel depth).statement true
      return .statement (← Grammar.spanFrom s.token.start) names : Reader Item) s = .ok item t) :
      item.Found script := by
    obtain ⟨names, s₁, -, h⟩ := bind_eq_ok h
    cases h
    exact .statement _ _
  split at h
  · obtain ⟨next, s₁, hpeek, h⟩ := bind_eq_ok h
    cases hpeek
    split at h
    · exact hstatement h
    · obtain ⟨span, bindings, source, rfl⟩ := importing_of_importItem h
      exact .importing span bindings source
  · refine .exported (hon fun offset hbroken => ?_) hlexeme (startsAt_exportItem h)
    rw [hlexeme] at hbroken
    cases hbroken
  · exact hstatement h

theorem found_moduleItems {script : List Char} (hs : s.Sound script) (hon : s.OnToken script)
    {items : List Item} (h : (grammar fuel depth).moduleItems s = .ok items t) :
    ∀ item ∈ items, item.Found script := by
  unfold Grammar.moduleItems at h
  generalize (grammar fuel depth).fuel = n at h
  induction n generalizing s items with
  | zero => cases h
  | succ n ih =>
    rw [many] at h
    obtain ⟨found, u, hpart, h⟩ := bind_eq_ok h
    replace hpart := token_bind_eq_ok hpart
    split at hpart
    · cases hpart
      cases h
      simp
    · obtain ⟨item, u, hitem, hpart⟩ := bind_eq_ok hpart
      cases hpart
      obtain ⟨more, v, hmore, h⟩ := bind_eq_ok h
      cases h
      have hsteps := Grammar.takes_moduleItem (takesParts_grammar fuel depth) s
      rw [hitem] at hsteps
      exact List.forall_mem_cons.2 ⟨found_moduleItem hon hitem,
        ih (hsteps.sound hs).1 (hsteps.onToken hs hon) hmore⟩

end Items

/-- The items of a module are found in its script. -/
theorem found_of_parse {source : String} {items : List Item} (h : parse source = .ok items) :
    ∀ item ∈ items, item.Found source.toList := by
  unfold parse at h
  dsimp only at h
  split at h
  · cases h
  · next hrun =>
    split at h
    · cases h
    · obtain rfl := Except.ok.inj h
      have hfirst := before_skipInterpreter source.toList
      exact found_moduleItems (sound_readToken true rfl rfl (.refl _) hfirst)
        (fun _ => Place.standsIn_readToken hfirst true _) hrun

/-- **The names of what a module exports are those that its declarations bind**, through patterns of
any depth. -/
theorem written_of_parse {source : String} {items : List Item} (h : parse source = .ok items) :
    ∀ item ∈ items, item.Written source.toList :=
  fun item hitem => (found_of_parse h item hitem).written

end SingleFile.Script
