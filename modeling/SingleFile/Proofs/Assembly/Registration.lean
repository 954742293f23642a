import SingleFile.Assembly
import SingleFile.Proofs.Script.AcceptedStatements

/-!
# Registrations of styles
-/

namespace SingleFile.Assembly

open Script Script.Reader Script.Grammar

variable {st : Setting} {ts ts' : List Seen} {l l' : Lexeme} {b b₀ b' b'' : Bool} {raw : String}
  {fields : List (String × String)} {fuel depth : Nat} {declarations : Bool}

/-! ### The statements -/

/-- A statement that assigns a value to a member of `this`. -/
theorem reads_statement_access (hfuel : 1 < fuel)
    (h : ∀ st, Reads st (grammar fuel (depth + 3)).assignment ((l, b) :: ts)
      ((.sign ";", b') :: (l', b'') :: ts') fun e => e.value = none) :
    Reads st ((grammar fuel (depth + 5)).statement declarations)
      (accessTokens b₀ raw ++ (.sign "=", false) :: (l, b) :: ts) ((l', b'') :: ts')
      fun _ => True :=
  reads_statement_assignment (Nat.zero_lt_of_lt hfuel) rfl rfl (by decide) reads_eatSemicolon
    (fun _ => reads_operand_access hfuel rfl) h

/-- The tokens of the statement that makes an empty object where there is none, in front of others. -/
def checkTokens (afterBreak : Bool) (raw : String) (rest : List Seen) : List Seen :=
  (.word "if" false, afterBreak) :: (.sign "(", false) :: (.sign "!", false) ::
    (accessTokens false raw ++ (.sign ")", false) :: (.sign "\x7b", false) ::
      (accessTokens true raw ++ (.sign "=", false) :: (.sign "\x7b", false) :: (.sign "\x7d", false) ::
        (.sign ";", false) :: (.sign "\x7d", true) :: rest))

theorem reads_statement_check (hfuel : 1 < fuel) (hl : l ≠ .word "else" false) :
    Reads st ((grammar fuel (depth + 9)).statement declarations)
      (checkTokens b₀ raw ((l, b) :: ts)) ((l, b) :: ts) fun _ => True := by
  have hreset : ReadsStatements (grammar fuel (depth + 7)) st 1
      (accessTokens true raw ++ (.sign "=", false) :: (.sign "\x7b", false) :: (.sign "\x7d", false) ::
        (.sign ";", false) :: (.sign "\x7d", true) :: (l, b) :: ts)
      ((.sign "\x7d", true) :: (l, b) :: ts) := by
    have hempty (st : Setting) : Reads st (grammar fuel (depth + 5)).assignment
        ((.sign "\x7b", false) :: (.sign "\x7d", false) :: (.sign ";", false) :: (.sign "\x7d", true) ::
          (l, b) :: ts) ((.sign ";", false) :: (.sign "\x7d", true) :: (l, b) :: ts)
        fun e => e.value = none := by
      show Reads st _ ((.sign "\x7b", false) :: (fieldTokens [] ++ (.sign "\x7d", false) :: _)) _ _
      exact reads_assignment_object (Nat.zero_lt_of_lt hfuel) rfl
    exact .next rfl (reads_statement_access hfuel hempty) (.done _)
  refine reads_statement_if (reads_innerExpression ?_ (by decide) (reads_assignment_not hfuel rfl))
    (reads_block ?_ hreset) ⟨l, b, ts, rfl, hl⟩
  · rw [fuel_grammar]
    omega
  · rw [fuel_grammar]
    omega

/-- The tokens of the value that has the classes besides those of a member, in front of others. -/
def mergeTokens (raw : String) (fields : List (String × String)) (rest : List Seen) : List Seen :=
  (.word "Object" false, false) :: (.sign ".", false) :: (.word "assign" false, false) ::
    (.sign "(", false) :: (accessTokens true raw ++ (.sign ",", false) :: (.sign "\x7b", false) ::
      (fieldTokens fields ++ (.sign "\x7d", false) :: (.sign ")", false) :: rest))

/-- The member and the classes as arguments. -/
theorem reads_arguments_classes (hfuel : fields.length + 2 < fuel) :
    Reads st (grammar fuel (depth + 4)).arguments
      ((.sign "(", false) :: (accessTokens true raw ++ (.sign ",", false) :: (.sign "\x7b", false) ::
        (fieldTokens fields ++ (.sign "\x7d", false) :: (.sign ")", false) :: (l, b) :: ts)))
      ((l, b) :: ts) fun _ => True := by
  obtain ⟨n, rfl⟩ : ∃ n, fuel = n + 2 := Nat.exists_eq_add_of_le' (by omega)
  have hmember (st : Setting) (ts : List Seen) : Reads st (grammar (n + 2) (depth + 4)).assignment
      (accessTokens true raw ++ (.sign ",", false) :: ts) ((.sign ",", false) :: ts)
      fun e => e.value = none :=
    (reads_assignment_grammar (by omega) rfl rfl (reads_operand_access (by omega) rfl)).imp
      fun e he => he.value
  refine reads_arguments ?_
  rw [fuel_grammar]
  refine reads_argumentParts_cons (by decide) (by decide) (by decide) (hmember _ _) ?_
  exact reads_argumentParts_last (by decide) (by decide) (reads_assignment_object (by omega) rfl)

theorem reads_assignment_merge (hfuel : fields.length + 2 < fuel) (hl : l.closes = true) :
    Reads st (grammar fuel (depth + 6)).assignment (mergeTokens raw fields ((l, b) :: ts))
      ((l, b) :: ts) fun e => e.value = none := by
  refine (reads_assignment_grammar (by omega) rfl hl ?_).imp fun e (he : e.Is .call) => he.value
  exact reads_operand_method (by omega) rfl (Lexeme.closesOperand_of_closes hl) (by simp)
    (reads_primary_name (by decide) (by decide)) (reads_arguments_classes hfuel)

def registrationTokens (afterBreak : Bool) (raw : String) (fields : List (String × String))
    (rest : List Seen) : List Seen :=
  checkTokens afterBreak raw
    (accessTokens true raw ++ (.sign "=", false) :: mergeTokens raw fields ((.sign ";", false) :: rest))

/-- A registration is two statements. -/
theorem readsStatements_registration (hfuel : fields.length + 2 < fuel) :
    ReadsStatements (grammar fuel (depth + 9)) st 2 (registrationTokens b₀ raw fields ((l, b) :: ts))
      ((l, b) :: ts) := by
  refine .next rfl (reads_statement_check (by omega) (by decide)) (.next rfl ?_ (.done _))
  exact reads_statement_access (by omega) fun st => reads_assignment_merge hfuel rfl


/-! ### The text -/

/-- The member of `this` that a style is registered as, in front of other text. -/
def accessChars (name rest : List Char) : List Char :=
  't' :: 'h' :: 'i' :: 's' :: '[' :: '\'' :: (name ++ '\'' :: ']' :: rest)

def registrationChars (name code rest : List Char) : List Char :=
  'i' :: 'f' :: '(' :: '!' :: accessChars name (')' :: ' ' :: '\x7b' :: '\n' :: ' ' :: ' ' ::
    accessChars name (' ' :: '=' :: ' ' :: '\x7b' :: '\x7d' :: ';' :: '\n' :: '\x7d' :: '\n' ::
      accessChars name (' ' :: '=' :: ' ' :: 'O' :: 'b' :: 'j' :: 'e' :: 'c' :: 't' :: '.' ::
        'a' :: 's' :: 's' :: 'i' :: 'g' :: 'n' :: '(' :: '\n' ::
          accessChars name (',' :: ' ' :: (code ++ ')' :: ';' :: '\n' :: rest)))))

theorem toList_registration (style : StyleResult) (rest : List Char) :
    (registration style).toList ++ rest =
      registrationChars style.name.toList style.code.toList rest := by
  have hif : "if(!".toList = ['i', 'f', '(', '!'] := String.toList_ofList
  have hopen : "this['".toList = ['t', 'h', 'i', 's', '[', '\''] := String.toList_ofList
  have hclose : "']".toList = ['\'', ']'] := String.toList_ofList
  have hthen : ") \x7b\n  ".toList = [')', ' ', '\x7b', '\n', ' ', ' '] := String.toList_ofList
  have hempty : " = \x7b\x7d;\n\x7d\n".toList =
      [' ', '=', ' ', '\x7b', '\x7d', ';', '\n', '\x7d', '\n'] := String.toList_ofList
  have hassign : " = Object.assign(\n".toList = [' ', '=', ' ', 'O', 'b', 'j', 'e', 'c', 't', '.',
      'a', 's', 's', 'i', 'g', 'n', '(', '\n'] := String.toList_ofList
  have hcomma : ", ".toList = [',', ' '] := String.toList_ofList
  have hend : ");\n".toList = [')', ';', '\n'] := String.toList_ofList
  unfold registration registrationChars accessChars
  simp only [String.toList_append, hif, hopen, hclose,
    hthen, hempty, hassign, hcomma, hend, List.append_assoc, List.cons_append, List.nil_append]

/-! ### Its tokens -/

def quoted (name : List Char) : String := String.ofList ('\'' :: (name ++ ['\'']))

theorem lexes_bracketed {name rest : List Char} (hname : PlainText name) (hrest : Lexes rest ts) :
    Lexes ('[' :: '\'' :: (name ++ '\'' :: ']' :: rest))
      ((.sign "[", false) :: (.string (quoted name), false) :: (.sign "]", false) :: ts) :=
  .token (fun _ => ⟨_, _, rfl⟩) (lexes_quoted hname (.token (fun _ => ⟨_, _, rfl⟩) hrest))

/-- A class and its name in the code, as they are written in JSON. -/
def quotedEntry (entry : String × String) : String × String :=
  (String.ofList (Json.quote entry.1.toList), String.ofList (Json.quote entry.2.toList))

/-- A class and its name in the code, as a field. -/
def fieldOf (entry : String × String) : String × Json := (entry.1, .string entry.2)

theorem lexes_fields {entries : List (String × String)} {rest : List Char} (hrest : Lexes rest ts) :
    Lexes (Json.fieldChars (entries.map fieldOf) ++ rest)
      (fieldTokens (entries.map quotedEntry) ++ ts) := by
  induction entries with
  | nil => exact hrest
  | cons entry entries ih =>
    have hfield {tail : List Char} {ts : List Seen} (htail : Lexes tail ts) :
        Lexes (Json.quote entry.1.toList ++ ':' :: (Json.quote entry.2.toList ++ tail))
          ((.string (quotedEntry entry).1, false) :: (.sign ":", false) ::
            (.string (quotedEntry entry).2, false) :: ts) := by
      exact lexes_quote (.token (fun _ => ⟨_, _, rfl⟩) (lexes_quote htail))
    cases entries with
    | nil =>
      have htext : Json.fieldChars [fieldOf entry] ++ rest =
          Json.quote entry.1.toList ++ ':' :: (Json.quote entry.2.toList ++ rest) := by
        simp [fieldOf, Json.fieldChars, Json.chars]
      rw [List.map_singleton, htext]
      exact hfield hrest
    | cons next entries =>
      have htext : Json.fieldChars (fieldOf entry :: fieldOf next :: entries.map fieldOf) ++ rest =
          Json.quote entry.1.toList ++ ':' :: (Json.quote entry.2.toList ++
            ',' :: (Json.fieldChars (fieldOf next :: entries.map fieldOf) ++ rest)) := by
        simp [fieldOf, Json.fieldChars, Json.chars]
      rw [List.map_cons, List.map_cons, htext]
      exact hfield (.token (fun _ => ⟨_, _, rfl⟩) ih)

/-- A map of classes, as it is written into a module. -/
def IsClassMap (code : String) (entries : List (String × String)) : Prop :=
  code = (Json.object (entries.map fieldOf)).compact

theorem append_classMap {code : String} {entries : List (String × String)}
    (h : IsClassMap code entries) (rest : List Char) :
    code.toList ++ rest = '\x7b' :: (Json.fieldChars (entries.map fieldOf) ++ '\x7d' :: rest) := by
  rw [h, Json.compact, String.toList_ofList, Json.chars, List.cons_append, List.append_assoc]
  rfl

theorem lexes_registration {gap rest : List Char} {style : StyleResult}
    {entries : List (String × String)} (hgap : gap ∈ [[], [' '], ['\n']])
    (hname : PlainText style.name.toList) (hcode : IsClassMap style.code entries)
    (hrest : Lexes ('\n' :: rest) ts) :
    Lexes (gap ++ ((registration style).toList ++ rest))
      (registrationTokens (gap.contains '\n') (quoted style.name.toList) (entries.map quotedEntry)
        ts) := by
  have hif (rest : List Char) (offset : Nat) : ∃ start stop,
      readToken false offset (gap ++ 'i' :: 'f' :: '(' :: rest) =
        (⟨.word "if" false, start, stop, gap.contains '\n'⟩, '(' :: rest, []) := by
    simp only [List.mem_cons, List.not_mem_nil, or_false] at hgap
    rcases hgap with rfl | rfl | rfl <;> exact ⟨_, _, rfl⟩
  rw [toList_registration, registrationChars, append_classMap hcode]
  refine .token (hif _) ?_
  iterate 3 refine .token (fun _ => ⟨_, _, rfl⟩) ?_
  refine lexes_bracketed hname ?_
  iterate 3 refine .token (fun _ => ⟨_, _, rfl⟩) ?_
  refine lexes_bracketed hname ?_
  iterate 6 refine .token (fun _ => ⟨_, _, rfl⟩) ?_
  refine lexes_bracketed hname ?_
  iterate 6 refine .token (fun _ => ⟨_, _, rfl⟩) ?_
  refine lexes_bracketed hname ?_
  refine .token (fun _ => ⟨_, _, rfl⟩) ?_
  refine .token (fun _ => ⟨_, _, rfl⟩) ?_
  refine lexes_fields ?_
  refine .token (fun _ => ⟨_, _, rfl⟩) ?_
  refine .token (fun _ => ⟨_, _, rfl⟩) ?_
  exact .token (fun _ => ⟨_, _, rfl⟩) hrest

/-! ### Members of `this` -/

def HasValue (raw : String) (units : List Nat) : Prop :=
  ∃ body, raw.toList = '\'' :: (body ++ ['\'']) ∧ literalValue? .plain body = some units

/-- What stands in brackets behind `this` is a string alone, with a property. -/
def EveryAccess (P : String → Prop) (ts : List Seen) : Prop :=
  ∀ b b' rest, (.word "this" false, b) :: (.sign "[", b') :: rest <:+ ts →
    ∃ raw b₁ b₂ more, rest = (.string raw, b₁) :: (.sign "]", b₂) :: more ∧ P raw

variable {P : String → Prop}

theorem everyAccess_nil : EveryAccess P [] := by
  intro b b' rest h
  cases List.eq_nil_of_suffix_nil h

theorem everyAccess_cons (hl : l ≠ .word "this" false) (h : EveryAccess P ts) :
    EveryAccess P ((l, b) :: ts) := by
  intro b₁ b₂ rest hsuffix
  rcases List.suffix_cons_iff.1 hsuffix with heq | hsuffix
  · exact absurd (Prod.mk.inj (List.cons.inj heq).1).1.symm hl
  · exact h b₁ b₂ rest hsuffix

theorem everyAccess_access (hraw : P raw) (h : EveryAccess P ts) :
    EveryAccess P (accessTokens b raw ++ ts) := by
  intro b₁ b₂ rest hsuffix
  have hbehind : EveryAccess P
      ((.sign "[", false) :: (.string raw, false) :: (.sign "]", false) :: ts) :=
    everyAccess_cons (by decide) (everyAccess_cons (by simp) (everyAccess_cons (by decide) h))
  rcases List.suffix_cons_iff.1 hsuffix with heq | hsuffix
  · obtain rfl := (List.cons.inj (List.cons.inj heq).2).2
    exact ⟨raw, false, false, ts, rfl, hraw⟩
  · exact hbehind b₁ b₂ rest hsuffix

theorem everyAccess_fields (h : EveryAccess P ts) : EveryAccess P (fieldTokens fields ++ ts) := by
  induction fields with
  | nil => exact h
  | cons field fields ih =>
    cases fields with
    | nil =>
      exact everyAccess_cons (by simp) (everyAccess_cons (by decide) (everyAccess_cons (by simp) h))
    | cons next fields =>
      exact everyAccess_cons (by simp) (everyAccess_cons (by decide)
        (everyAccess_cons (by simp) (everyAccess_cons (by decide) ih)))

theorem everyAccess_registration (hraw : P raw) (h : EveryAccess P ts) :
    EveryAccess P (registrationTokens b raw fields ts) := by
  have hmerge : EveryAccess P (mergeTokens raw fields ((.sign ";", false) :: ts)) := by
    refine everyAccess_cons (by decide) (everyAccess_cons (by decide) (everyAccess_cons (by decide) ?_))
    refine everyAccess_cons (by decide) (everyAccess_access hraw (everyAccess_cons (by decide) ?_))
    refine everyAccess_cons (by decide) (everyAccess_fields (everyAccess_cons (by decide) ?_))
    exact everyAccess_cons (by decide) (everyAccess_cons (by decide) h)
  refine everyAccess_cons (by decide) (everyAccess_cons (by decide) (everyAccess_cons (by decide) ?_))
  refine everyAccess_access hraw (everyAccess_cons (by decide) (everyAccess_cons (by decide) ?_))
  refine everyAccess_access hraw (everyAccess_cons (by decide) (everyAccess_cons (by decide) ?_))
  refine everyAccess_cons (by decide) (everyAccess_cons (by decide) (everyAccess_cons (by decide) ?_))
  exact everyAccess_access hraw (everyAccess_cons (by decide) hmerge)

/-- A registration is well formed, and each member of `this` that stands in it is a string literal alone
whose value is the name of the style. -/
structure Registers (style : StyleResult) : Prop where
  parses : ∃ items, parse (registration style) = .ok items
  addresses : ∃ ts, HasTokens (registration style).toList ts ∧
    EveryAccess (HasValue · (unitsOf style.name.toList)) ts

/-- A property of `this` that stands in a registration. -/
def Reaches (style : StyleResult) (property : List Nat) : Prop :=
  ∃ ts raw b b₁ b₂ rest, HasTokens (registration style).toList ts ∧
    (.word "this" false, b) :: (.sign "[", b₁) :: (.string raw, b₂) :: rest <:+ ts ∧
    HasValue raw property

theorem HasValue.unique {units units' : List Nat} (h : HasValue raw units)
    (h' : HasValue raw units') : units = units' := by
  obtain ⟨body, hraw, hvalue⟩ := h
  obtain ⟨body', hraw', hvalue'⟩ := h'
  obtain rfl := List.append_cancel_right (List.cons.inj (hraw.symm.trans hraw')).2
  exact Option.some.inj (hvalue.symm.trans hvalue')

theorem Registers.eq_of_reaches {style : StyleResult} {property : List Nat} (h : Registers style)
    (hreaches : Reaches style property) : property = unitsOf style.name.toList := by
  obtain ⟨ts, htokens, hevery⟩ := h.addresses
  obtain ⟨ts', raw, b, b₁, b₂, rest, htokens', hsuffix, hvalue⟩ := hreaches
  obtain rfl := htokens.unique htokens'
  obtain ⟨raw', b₃, b₄, more, heq, hraw⟩ := hevery _ _ _ hsuffix
  obtain rfl := Lexeme.string.inj (Prod.mk.inj (List.cons.inj heq).1).1
  exact hvalue.unique hraw

/-! ### Names that stand for themselves -/

theorem registrationTokens_append :
    registrationTokens b raw fields ts ++ ts' = registrationTokens b raw fields (ts ++ ts') := by
  simp only [registrationTokens, checkTokens, mergeTokens, List.cons_append, List.append_assoc]

theorem finish_notMem_fields : (.finish, b) ∉ fieldTokens fields := by
  induction fields with
  | nil => exact List.not_mem_nil
  | cons field fields ih => cases fields <;> simp_all [fieldTokens]

theorem finish_notMem_registration : (.finish, b) ∉ registrationTokens b' raw fields [] := by
  simp [registrationTokens, checkTokens, mergeTokens, accessTokens, finish_notMem_fields]

theorem hasTokens_registration {style : StyleResult} {entries : List (String × String)}
    (hname : PlainText style.name.toList) (hcode : IsClassMap style.code entries) :
    HasTokens (registration style).toList
      (registrationTokens false (quoted style.name.toList) (entries.map quotedEntry) []) := by
  have hend : Lexes ['\n'] [(.finish, true)] := .token (fun _ => ⟨_, _, rfl⟩) (.done [])
  refine ⟨⟨true, ?_⟩, fun b => finish_notMem_registration⟩
  have htokens := lexes_registration List.mem_cons_self hname hcode hend
  rw [registrationTokens_append]
  rwa [List.append_nil, List.nil_append] at htokens

theorem hasValue_quoted {name : List Char} (h : PlainText name) :
    HasValue (quoted name) (unitsOf name) :=
  ⟨name, String.toList_ofList, literalValue?_eq_iff.2 h⟩

theorem length_entries_le {code : String} {entries : List (String × String)}
    (h : IsClassMap code entries) : entries.length ≤ code.toList.length := by
  have hfields : entries.length ≤ (Json.fieldChars (entries.map fieldOf)).length := by
    clear h
    induction entries with
    | nil => exact Nat.le_refl _
    | cons entry entries ih =>
      cases entries with
      | nil => simp [fieldOf, Json.fieldChars, Json.quote]
      | cons next entries =>
        simp only [List.map_cons, Json.fieldChars, fieldOf, List.length_append, List.length_cons]
          at ih ⊢
        omega
  have hcode := append_classMap h []
  rw [List.append_nil] at hcode
  rw [hcode, List.length_cons, List.length_append]
  omega

theorem le_length_registration (style : StyleResult) :
    style.code.toList.length + 9 ≤ (registration style).toList.length := by
  have htext := toList_registration style []
  rw [List.append_nil] at htext
  rw [htext]
  simp only [registrationChars, accessChars, List.length_cons, List.length_append]
  omega

theorem registers_of_plain {style : StyleResult} {entries : List (String × String)}
    (hname : PlainText style.name.toList) (hcode : IsClassMap style.code entries) :
    Registers style := by
  have htokens := hasTokens_registration hname hcode
  refine ⟨?_, _, htokens, everyAccess_registration (hasValue_quoted hname) everyAccess_nil⟩
  have htext := toList_registration style []
  rw [List.append_nil] at htext
  have hfields := length_entries_le hcode
  have hlength := le_length_registration style
  obtain ⟨depth, hdepth⟩ : ∃ depth, 3 * (registration style).toList.length + 6 = depth + 9 :=
    Nat.exists_eq_add_of_le' (by omega)
  refine exists_parse htokens ?_ ?_ (n := 2) (by omega) fun b' => ?_
  · rw [htext]
    rfl
  · rw [htext]
    exact ⟨_, _, _, rfl, rfl⟩
  · rw [hdepth]
    show ReadsStatements _ _ _ (registrationTokens true _ _ [] ++ _) _
    rw [registrationTokens_append]
    exact readsStatements_registration (by rw [List.length_map]; omega)

/-! ### Names that do not -/

/-- The tokens of a registration up to the first string. -/
theorem HasTokens.exists_registration {style : StyleResult} {ts : List Seen}
    (h : HasTokens (registration style).toList ts) : ∃ rest ts', HasTokens
      ('\'' :: (style.name.toList ++ '\'' :: ']' :: ')' :: ' ' :: '\x7b' :: '\n' :: rest)) ts' ∧
      (.word "this" false, false) :: (.sign "[", false) :: ts' <:+ ts := by
  have htext := toList_registration style []
  rw [List.append_nil] at htext
  rw [htext] at h
  obtain ⟨ts₁, rfl, h₁⟩ := h.exists_cons (l := .word "if" false) (fun _ => ⟨_, _, rfl⟩) (by decide)
  obtain ⟨ts₂, rfl, h₂⟩ := h₁.exists_cons (l := .sign "(") (fun _ => ⟨_, _, rfl⟩) (by decide)
  obtain ⟨ts₃, rfl, h₃⟩ := h₂.exists_cons (l := .sign "!") (fun _ => ⟨_, _, rfl⟩) (by decide)
  obtain ⟨ts₄, rfl, h₄⟩ := h₃.exists_cons (l := .word "this" false) (fun _ => ⟨_, _, rfl⟩) (by decide)
  obtain ⟨ts₅, rfl, h₅⟩ := h₄.exists_cons (l := .sign "[") (fun _ => ⟨_, _, rfl⟩) (by decide)
  exact ⟨_, ts₅, h₅, ⟨[(.word "if" false, false), (.sign "(", false), (.sign "!", false)], rfl⟩⟩

theorem prefix_of_append_cons {α : Type} {front more c t : List α} {d : α}
    (h : front ++ more = c ++ d :: t) (hd : d ∉ front) : front <+: c := by
  rcases List.append_eq_append_iff.1 h with ⟨a, rfl, -⟩ | ⟨a, rfl, ha⟩
  · exact List.prefix_append front a
  · cases a with
    | nil => simp
    | cons x a =>
      obtain rfl := (List.cons.inj ha).1
      exact absurd (List.mem_append_right c List.mem_cons_self) hd

/-- A literal with the value of a name that starts where the name is quoted ends where that ends. -/
theorem plainText_of_literal {name body rest : List Char}
    (hbody : body ++ ['\''] <+: name ++ '\'' :: ']' :: ')' :: ' ' :: '\x7b' :: '\n' :: rest)
    (hvalue : literalValue? .plain body = some (unitsOf name)) : PlainText name := by
  obtain ⟨t, ht⟩ := hbody
  rw [List.append_assoc, List.singleton_append] at ht
  rcases List.append_eq_append_iff.1 ht with ⟨a, rfl, ha⟩ | ⟨a, rfl, ha⟩
  · cases a with
    | nil =>
      rw [List.append_nil] at hvalue ⊢
      exact literalValue?_eq_iff.1 hvalue
    | cons c a =>
      -- the literal ends too early to mean the whole name
      have hle := length_literalValue?_le hvalue
      have hpos := length_codeUnits_pos c.toNat
      simp only [unitsOf, List.flatMap_append, List.flatMap_cons, List.length_append,
        InLiteral.credit] at hle
      omega
  · cases a with
    | nil =>
      rw [List.append_nil] at hvalue
      exact literalValue?_eq_iff.1 hvalue
    | cons c a =>
      -- the literal goes on over the end of the line
      obtain ⟨rfl, htail⟩ := List.cons.inj ha
      have hfront : [']', ')', ' ', '\x7b', '\n'] ++ rest = a ++ '\'' :: t := htail
      obtain ⟨b, rfl⟩ := prefix_of_append_cons hfront (by decide)
      have hsplit : name ++ '\'' :: ([']', ')', ' ', '\x7b', '\n'] ++ b) =
          (name ++ ['\'', ']', ')', ' ']) ++ '\x7b' :: '\n' :: b := by simp
      rw [hsplit, literalValue?_brace_break] at hvalue
      cases hvalue

theorem Registers.plain {style : StyleResult} (h : Registers style) : PlainText style.name.toList := by
  obtain ⟨ts, htokens, hevery⟩ := h.addresses
  obtain ⟨rest, ts', hrest, hsuffix⟩ := HasTokens.exists_registration htokens
  obtain ⟨raw, b₁, b₂, more, rfl, body, hraw, hvalue⟩ := hevery _ _ _ hsuffix
  obtain ⟨b, hlexes⟩ := hrest.lexes
  obtain ⟨n, hn⟩ := hlexes.exists_take
  rw [hraw] at hn
  have hbody : body ++ ['\''] <+:
      style.name.toList ++ '\'' :: ']' :: ')' :: ' ' :: '\x7b' :: '\n' :: rest := by
    rw [(List.cons.inj hn).2]
    exact List.take_prefix _ _
  exact plainText_of_literal hbody hvalue

/-- The styles that are registered under their names are those whose names stand for themselves. -/
theorem registers_iff_plain {style : StyleResult} {entries : List (String × String)}
    (hcode : IsClassMap style.code entries) : Registers style ↔ PlainText style.name.toList :=
  ⟨Registers.plain, fun hname => registers_of_plain hname hcode⟩

end SingleFile.Assembly
