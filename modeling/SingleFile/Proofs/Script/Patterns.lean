import SingleFile.Proofs.Script.Items

/-!
# The patterns of declarations

A pattern of a declaration is a tree, and the names that it binds are those of its parts from left to
right.  `Pattern.Reads` says that a pattern stands in the script between two places, with each sign,
word and value where the language has it, to any depth.  A reader gives the names of the pattern that
stands where it reads: every run has such a tree behind it (`Binds`, `binds_pattern`).
-/

namespace SingleFile.Script

open Reader Cursor

/-! ### Places -/

/-- A place in a script: the token that stands there, what is left behind it, and what is allowed. -/
structure Place where
  token : Token
  rest : List Char
  setting : Setting

/-- Where a reading stands. -/
def Reading.place (s : Reading) : Place := ⟨s.token, s.rest, s.setting⟩

namespace Place

/-- The place of the first token behind an offset. -/
def read (setting : Setting) (offset : Nat) (cs : List Char) : Place :=
  ⟨(readToken false offset cs).1, (readToken false offset cs).2.1, setting⟩

def next (a : Place) : Place := read a.setting a.token.stop a.rest

/-- The same place where `in` is an operator. -/
def withIn (a : Place) : Place := { a with setting := { a.setting with allowIn := true } }

def At (a : Place) (sign : String) : Prop := a.token.lexeme = .sign sign

/-- A word stands at a place, perhaps written with escapes. -/
def Word (a : Place) (n : Name) : Prop :=
  (∃ escaped, a.token.lexeme = .word n.text escaped) ∧ n.span = ⟨a.token.start, a.token.stop⟩

def Keyword (a : Place) (w : String) : Prop := a.token.lexeme = .word w false

def Passes {α : Type} (p : Reader α) (a b : Place) : Prop :=
  ∃ s x t, p s = .ok x t ∧ s.place = a ∧ t.place = b

/-- An expression without commas stands between two places. -/
def Value (a b : Place) : Prop := ∃ fuel depth, Passes (grammar fuel depth).assignment a b

/-- A default value stands between two places. -/
def Default (a b : Place) : Prop := ∃ fuel depth, Passes (grammar fuel depth).assignedValue a b

/-- An expression in brackets, which may hold commas, stands between two places. -/
def Inner (a b : Place) : Prop := ∃ fuel depth, Passes (grammar fuel depth).innerExpression a b

/-- The key of a property stands between two places. -/
inductive Key : Place → Place → Prop
  | word {a : Place} {n : Name} (h : a.Word n) : Key a a.next
  | string {a : Place} {raw : String} (h : a.token.lexeme = .string raw) : Key a a.next
  | number {a : Place} (h : a.token.lexeme = .number) : Key a a.next
  | computed {a b : Place} (h : a.At "[") (inner : Inner a.next b) (close : b.At "]") :
      Key a b.next

end Place

/-! ### Places that stand in a script -/

/-- The token of a place is the one that is taken where it starts in a script. -/
def Place.StandsIn (script : List Char) (a : Place) : Prop :=
  ∃ front problems, Before ⟨0, script⟩ ⟨a.token.start, front⟩ ∧
    takeToken a.token.start front = ⟨a.token.lexeme, a.token.stop, a.rest, problems⟩

namespace Place

variable {script : List Char} {a : Place}

theorem standsIn_readToken {offset : Nat} {cs : List Char} (h : Before ⟨0, script⟩ ⟨offset, cs⟩)
    (afterBreak : Bool) (setting : Setting) : StandsIn script
      ⟨(readToken afterBreak offset cs).1, (readToken afterBreak offset cs).2.1, setting⟩ :=
  ⟨_, _, h.trans (before_skipGap .space afterBreak offset cs), rfl⟩

theorem StandsIn.before (h : a.StandsIn script) : Before ⟨0, script⟩ ⟨a.token.stop, a.rest⟩ := by
  obtain ⟨front, problems, hfront, htaken⟩ := h
  have hreads := (Taken.reads_takeToken a.token.start front).before
  rw [htaken] at hreads
  exact hfront.trans hreads

theorem StandsIn.next (h : a.StandsIn script) : a.next.StandsIn script :=
  standsIn_readToken h.before false a.setting

end Place

namespace Reading

variable {script : List Char} {s t : Reading}

/-- The current token stands in the script, unless it has been broken. -/
def OnToken (script : List Char) (s : Reading) : Prop :=
  (∀ offset, s.token.lexeme ≠ .broken offset) → s.place.StandsIn script

/-- A step goes on to a token of the script. -/
theorem Step.onToken (h : Step s t) (hs : s.Sound script) (hon : s.OnToken script) :
    t.OnToken script := by
  cases h with
  | noted | allowed | marked => exact hon
  | broken offset => exact fun hno => absurd rfl (hno offset)
  | moved h =>
    obtain ⟨behind, front, hs⟩ := hs
    exact fun _ => Place.standsIn_readToken (hs.last.trans (hs.start.trans (h.before hs))) false _

theorem Steps.onToken (h : Steps s t) (hs : s.Sound script) (hon : s.OnToken script) :
    t.OnToken script := by
  induction h with
  | refl => exact hon
  | tail prior step ih => exact step.onToken (prior.sound hs).1 ih

end Reading

/-! ### Patterns -/

mutual

/-- A pattern that is bound.  Its default value, if it has one, binds nothing. -/
inductive Pattern where
  | name (n : Name)
  | array (elements : Elements)
  | object (properties : Properties)
  | withDefault (p : Pattern)

inductive Elements where
  | nil
  | hole (more : Elements)
  | element (p : Pattern) (more : Elements)
  | rest (p : Pattern) (more : Elements)

/-- The properties of an object pattern.  A property that is only a word, perhaps with a default
value, binds a variable of that name. -/
inductive Properties where
  | nil
  | keyed (p : Pattern) (more : Properties)
  | short (n : Name) (more : Properties)
  | rest (p : Pattern) (more : Properties)

end

mutual

/-- The names that a pattern binds, from left to right. -/
def Pattern.names : Pattern → List Name
  | .name n => [n]
  | .array es => es.names
  | .object ps => ps.names
  | .withDefault p => p.names

def Elements.names : Elements → List Name
  | .nil => []
  | .hole more => more.names
  | .element p more | .rest p more => p.names ++ more.names

def Properties.names : Properties → List Name
  | .nil => []
  | .short n more => n :: more.names
  | .keyed p more | .rest p more => p.names ++ more.names

end

mutual

/-- A pattern stands between two places. -/
inductive Pattern.Reads : Pattern → Place → Place → Prop
  | name {n : Name} {a : Place} (word : a.Word n) (free : isReserved n.text = false) :
      Pattern.Reads (.name n) a a.next
  | array {es : Elements} {a b : Place} (opens : a.At "[") (inside : es.Reads a.next b) :
      Pattern.Reads (.array es) a b
  | object {ps : Properties} {a b : Place} (opens : a.At "\x7b") (inside : ps.Reads a.next b) :
      Pattern.Reads (.object ps) a b
  | withDefault {p : Pattern} {a b c : Place} (pattern : p.Reads a b) (sign : b.At "=")
      (value : b.next.Default c) : Pattern.Reads (.withDefault p) a c

/-- Elements stand between two places, the closing bracket included. -/
inductive Elements.Reads : Elements → Place → Place → Prop
  | nil {a : Place} (closes : a.At "]") : Elements.Reads .nil a a.next
  | hole {more : Elements} {a b : Place} (comma : a.At ",") (behind : more.Reads a.next b) :
      Elements.Reads (.hole more) a b
  | element {p : Pattern} {more : Elements} {a b c : Place} (pattern : p.Reads a b)
      (behind : more.Follows b c) : Elements.Reads (.element p more) a c
  | rest {p : Pattern} {more : Elements} {a b c : Place} (sign : a.At "...")
      (pattern : p.Reads a.next b) (behind : more.Follows b c) : Elements.Reads (.rest p more) a c

/-- Elements stand behind another one, with a comma between them, or there are none. -/
inductive Elements.Follows : Elements → Place → Place → Prop
  | nil {a : Place} (closes : a.At "]") : Elements.Follows .nil a a.next
  | more {es : Elements} {a b : Place} (comma : a.At ",") (behind : es.Reads a.next b) :
      Elements.Follows es a b

/-- Properties stand between two places, the closing brace included. -/
inductive Properties.Reads : Properties → Place → Place → Prop
  | nil {a : Place} (closes : a.At "\x7d") : Properties.Reads .nil a a.next
  | keyed {p : Pattern} {more : Properties} {a b c d : Place} (key : a.Key b) (colon : b.At ":")
      (pattern : p.Reads b.next c) (behind : more.Follows c d) : Properties.Reads (.keyed p more) a d
  | short {n : Name} {more : Properties} {a b : Place} (word : a.Word n)
      (behind : more.Follows a.next b) : Properties.Reads (.short n more) a b
  | shortWithDefault {n : Name} {more : Properties} {a b c : Place} (word : a.Word n)
      (sign : a.next.At "=") (value : a.next.next.Default b) (behind : more.Follows b c) :
      Properties.Reads (.short n more) a c
  | rest {p : Pattern} {more : Properties} {a b c : Place} (sign : a.At "...")
      (pattern : p.Reads a.next b) (behind : more.Follows b c) : Properties.Reads (.rest p more) a c

/-- Properties stand behind another one, with a comma between them, or there are none. -/
inductive Properties.Follows : Properties → Place → Place → Prop
  | nil {a : Place} (closes : a.At "\x7d") : Properties.Follows .nil a a.next
  | more {ps : Properties} {a b : Place} (comma : a.At ",") (behind : ps.Reads a.next b) :
      Properties.Follows ps a b

end

/-! ### Steps of a reader -/

section Runs

variable {α β : Type} {s t : Reading} {u : Unit} {b : β} {sign : String}

theorem start_bind_eq_ok {f : Nat → Reader β} (h : (start >>= f) s = .ok b t) :
    f s.token.start s = .ok b t := h

theorem token_bind_eq_ok {f : Token → Reader β} (h : (token >>= f) s = .ok b t) :
    f s.token s = .ok b t := h

theorem isSign_bind_eq_ok {f : Bool → Reader β} (h : (isSign sign >>= f) s = .ok b t) :
    ∃ found, (found = true ↔ s.place.At sign) ∧ f found s = .ok b t := by
  have hiff : decide (s.token.lexeme = .sign sign) = true ↔ s.place.At sign := decide_eq_true_iff
  exact ⟨_, hiff, h⟩

theorem isWord_bind_eq_ok {word : String} {f : Bool → Reader β}
    (h : (isWord word >>= f) s = .ok b t) :
    ∃ found, (found = true ↔ s.place.Keyword word) ∧ f found s = .ok b t := by
  have hiff : decide (s.token.lexeme = .word word false) = true ↔ s.place.Keyword word :=
    decide_eq_true_iff
  exact ⟨_, hiff, h⟩

theorem bump_bind_eq_ok {f : Unit → Reader β} (h : (bump >>= f) s = .ok b t) :
    ∃ s₁, s₁.place = s.place.next ∧ f () s₁ = .ok b t := ⟨_, rfl, h⟩

theorem note_bind_eq_ok {offset : Nat} {f : Unit → Reader β}
    (h : (note offset >>= f) s = .ok b t) : ∃ s₁, s₁.place = s.place ∧ f () s₁ = .ok b t :=
  ⟨{ s with problems := s.problems ++ [offset] }, rfl, h⟩

/-- Where a problem is noted or not, the reading goes on from the same place. -/
theorem problem_bind_eq_ok {problem : Option Nat} {f : Unit → Reader β}
    (h : (match problem with
      | some offset => note offset >>= f
      | none => f ()) s = .ok b t) : ∃ s₁, s₁.place = s.place ∧ f () s₁ = .ok b t := by
  cases problem with
  | some offset => exact note_bind_eq_ok h
  | none => exact ⟨s, rfl, h⟩

theorem problemIf_bind_eq_ok {c : Prop} [Decidable c] {offset : Nat} {f : Unit → Reader β}
    (h : (if c then note offset >>= f else f ()) s = .ok b t) :
    ∃ s₁, s₁.place = s.place ∧ f () s₁ = .ok b t := by
  split at h
  · exact note_bind_eq_ok h
  · exact ⟨s, rfl, h⟩

theorem throwIf_bind_eq_ok {c : Prop} [Decidable c] {offset : Nat} {f : Unit → Reader β}
    (h : (if c then throw offset >>= f else f ()) s = .ok b t) : f () s = .ok b t := by
  split at h
  · cases h
  · exact h

/-- A sign is read, or the reader stays where it is. -/
theorem eatSign_bind_eq_ok {f : Bool → Reader β} (h : (eatSign sign >>= f) s = .ok b t) :
    (s.place.At sign ∧ ∃ s₁, s₁.place = s.place.next ∧ f true s₁ = .ok b t) ∨
      (¬ s.place.At sign ∧ f false s = .ok b t) := by
  obtain ⟨eaten, s₁, heat, h⟩ := bind_eq_ok h
  obtain ⟨found, hsign, heat⟩ := isSign_bind_eq_ok heat
  cases found with
  | true =>
    cases heat
    exact .inl ⟨hsign.1 rfl, _, rfl, h⟩
  | false =>
    cases heat
    exact .inr ⟨fun hat => Bool.noConfusion (hsign.2 hat), h⟩

theorem expectSign_bind_eq_ok {f : Unit → Reader β} (h : (expectSign sign >>= f) s = .ok b t) :
    s.place.At sign ∧ ∃ s₁, s₁.place = s.place.next ∧ f () s₁ = .ok b t := by
  obtain ⟨u, s₁, hexpect, h⟩ := bind_eq_ok h
  rcases eatSign_bind_eq_ok hexpect with ⟨hsign, s₂, hplace, hexpect⟩ | ⟨-, hexpect⟩
  · cases hexpect
    exact ⟨hsign, s₁, hplace, h⟩
  · cases hexpect

/-- A keyword is read, or the reader stays where it is. -/
theorem eatWord_bind_eq_ok {word : String} {f : Bool → Reader β}
    (h : (eatWord word >>= f) s = .ok b t) :
    (s.place.Keyword word ∧ ∃ s₁, s₁.place = s.place.next ∧ f true s₁ = .ok b t) ∨
      (¬ s.place.Keyword word ∧ f false s = .ok b t) := by
  obtain ⟨eaten, s₁, heat, h⟩ := bind_eq_ok h
  obtain ⟨found, hword, heat⟩ := isWord_bind_eq_ok heat
  cases found with
  | true =>
    cases heat
    exact .inl ⟨hword.1 rfl, _, rfl, h⟩
  | false =>
    cases heat
    exact .inr ⟨fun hkeyword => Bool.noConfusion (hword.2 hkeyword), h⟩

theorem expectWord_bind_eq_ok {word : String} {f : Unit → Reader β}
    (h : (expectWord word >>= f) s = .ok b t) :
    s.place.Keyword word ∧ ∃ s₁, s₁.place = s.place.next ∧ f () s₁ = .ok b t := by
  obtain ⟨u, s₁, hexpect, h⟩ := bind_eq_ok h
  rcases eatWord_bind_eq_ok hexpect with ⟨hword, s₂, hplace, hexpect⟩ | ⟨-, hexpect⟩
  · cases hexpect
    exact ⟨hword, s₁, hplace, h⟩
  · cases hexpect

/-- A name that is bound is a word that is not reserved. -/
theorem bindingName_eq_ok {n : Name} (h : bindingName s = .ok n t) :
    s.place.Word n ∧ isReserved n.text = false ∧ t.place = s.place.next := by
  replace h := token_bind_eq_ok h
  generalize hlexeme : s.token.lexeme = lexeme at h
  cases lexeme with
  | word w escaped =>
    dsimp only at h
    by_cases hreserved : isReserved w = true
    · rw [if_pos hreserved] at h
      cases h
    · rw [if_neg hreserved] at h
      have hfree : isReserved w = false := by simpa using hreserved
      obtain ⟨s₁, hplace, h⟩ := bump_bind_eq_ok h
      split at h
      · obtain ⟨s₂, hnote, h⟩ := note_bind_eq_ok h
        cases h
        exact ⟨⟨⟨escaped, hlexeme⟩, rfl⟩, hfree, hnote.trans hplace⟩
      · cases h
        exact ⟨⟨⟨escaped, hlexeme⟩, rfl⟩, hfree, hplace⟩
  | _ => cases h

/-- Reading with other permissions starts at the same place, apart from what is allowed. -/
theorem within_eq_ok {change : Setting → Setting} {p : Reader α} {a : α}
    (h : within change p s = .ok a t) :
    ∃ t', p { s with setting := change s.setting } = .ok a t' := by
  obtain ⟨old, s₁, hget, h⟩ := bind_eq_ok h
  cases hget
  obtain ⟨_, s₁, hset, h⟩ := bind_eq_ok h
  cases hset
  obtain ⟨r, s₂, hcatch, h⟩ := bind_eq_ok h
  rcases tryCatch_eq_ok hcatch with hbody | ⟨offset, s₃, -, hback⟩
  · obtain ⟨b, s₃, hp, hbody⟩ := bind_eq_ok hbody
    cases hbody
    cases h
    exact ⟨s₃, hp⟩
  · cases hback

end Runs

/-! ### Readers of patterns -/

/-- For the names that a reader gives there is a pattern that binds them. -/
def Binds (p : Reader (List Name)) : Prop :=
  ∀ s names t, p s = .ok names t → ∃ q : Pattern, q.Reads s.place t.place ∧ q.names = names

section Readers

variable {s t : Reading} {u : Unit} {names : List Name} {fuel depth : Nat}

/-- The key of a property is read; where it is a word, that word is given. -/
theorem propertyName_eq_ok {found : Option Name}
    (h : (grammar fuel depth).propertyName s = .ok found t) :
    s.place.Key t.place ∧ ∀ n, found = some n → s.place.Word n ∧ t.place = s.place.next := by
  replace h := token_bind_eq_ok h
  generalize hlexeme : s.token.lexeme = lexeme at h
  match lexeme with
  | .word w escaped =>
    obtain ⟨s₁, hplace, h⟩ := bump_bind_eq_ok h
    cases h
    have hword : s.place.Word ⟨w, ⟨s.token.start, s.token.stop⟩⟩ := ⟨⟨escaped, hlexeme⟩, rfl⟩
    refine ⟨hplace ▸ .word hword, ?_⟩
    rintro n ⟨⟩
    exact ⟨hword, hplace⟩
  | .string raw =>
    obtain ⟨s₁, hplace, h⟩ := bump_bind_eq_ok h
    cases h
    exact ⟨hplace ▸ .string hlexeme, by simp⟩
  | .number =>
    obtain ⟨s₁, hplace, h⟩ := bump_bind_eq_ok h
    cases h
    exact ⟨hplace ▸ .number hlexeme, by simp⟩
  | .sign x =>
    by_cases hx : x = "["
    · obtain rfl := hx
      obtain ⟨s₁, hopen, h⟩ := bump_bind_eq_ok h
      obtain ⟨x, s₂, hinner, h⟩ := bind_eq_ok h
      obtain ⟨hclose, s₃, hplace, h⟩ := expectSign_bind_eq_ok h
      cases h
      have hinside : s.place.next.Inner s₂.place := ⟨fuel, depth, s₁, x, s₂, hinner, hopen, rfl⟩
      exact ⟨hplace ▸ .computed hlexeme hinside hclose, by simp⟩
    · simp [hx] at h
      cases h
  | .finish => cases h
  | .broken _ => cases h

/-- A pattern is read, with its default value. -/
theorem binds_boundElement (hpattern : Binds (grammar fuel depth).pattern) :
    Binds (grammar fuel depth).boundElement := by
  intro s names t h
  obtain ⟨names', s₁, hnames, h⟩ := bind_eq_ok h
  obtain ⟨q, hreads, hq⟩ := hpattern s names' s₁ hnames
  rcases eatSign_bind_eq_ok h with ⟨hequals, s₂, hplace, h⟩ | ⟨-, h⟩
  · obtain ⟨_, s₃, hvalue, h⟩ := bind_eq_ok h
    cases h
    have hdefault : s₁.place.next.Default t.place := ⟨fuel, depth, s₂, _, t, hvalue, hplace, rfl⟩
    exact ⟨.withDefault q, .withDefault hreads hequals hdefault, hq⟩
  · cases h
    exact ⟨q, hreads, hq⟩

/-- Behind an element there is the closing bracket, or a comma and what is read behind it. -/
theorem exists_elementsFollow {more : Reader (List Name)} {before : List Name} {spread : Bool}
    (hmore : ∀ s names t, more s = .ok names t →
      ∃ es : Elements, es.Reads s.place t.place ∧ es.names = names)
    (h : (do
      if ← eatSign "]" then return before
      let comma ← start
      expectSign ","
      if spread && (← isSign "]") then note comma
      return before ++ (← more) : Reader (List Name)) s = .ok names t) :
    ∃ es : Elements, es.Follows s.place t.place ∧ before ++ es.names = names := by
  rcases eatSign_bind_eq_ok h with ⟨hclose, s₁, hplace, h⟩ | ⟨-, h⟩
  · cases h
    exact ⟨.nil, hplace ▸ .nil hclose, List.append_nil _⟩
  replace h := start_bind_eq_ok h
  obtain ⟨hcomma, s₁, hplace, h⟩ := expectSign_bind_eq_ok h
  obtain ⟨closes, -, h⟩ := isSign_bind_eq_ok h
  obtain ⟨s₂, hnoted, h⟩ := problemIf_bind_eq_ok h
  obtain ⟨names', s₃, hrest, h⟩ := bind_eq_ok h
  cases h
  obtain ⟨es, hreads, rfl⟩ := hmore s₂ names' t hrest
  exact ⟨es, .more hcomma (hplace ▸ hnoted ▸ hreads), rfl⟩

/-- Elements are read up to the closing bracket. -/
theorem exists_elements (hpattern : Binds (grammar fuel depth).pattern) {n : Nat}
    {rest : Option Nat} (h : (grammar fuel depth).boundElements n rest s = .ok names t) :
    ∃ es : Elements, es.Reads s.place t.place ∧ es.names = names := by
  induction n generalizing s rest names t with
  | zero => cases h
  | succ n ih =>
    unfold Grammar.boundElements at h
    rcases eatSign_bind_eq_ok h with ⟨hclose, s₁, hplace, h⟩ | ⟨-, h⟩
    · cases h
      exact ⟨.nil, hplace ▸ .nil hclose, rfl⟩
    rcases eatSign_bind_eq_ok h with ⟨hcomma, s₁, hplace, h⟩ | ⟨-, h⟩
    · obtain ⟨es, hreads, hes⟩ := ih h
      exact ⟨.hole es, .hole hcomma (hplace ▸ hreads), hes⟩
    obtain ⟨s₁, hnoted, h⟩ := problem_bind_eq_ok h
    replace h := start_bind_eq_ok h
    rw [← hnoted]
    rcases eatSign_bind_eq_ok h with ⟨hsign, s₂, hplace, h⟩ | ⟨-, h⟩
    · obtain ⟨before, s₃, hbefore, h⟩ := bind_eq_ok h
      obtain ⟨q, hq, rfl⟩ := hpattern s₂ before s₃ hbefore
      obtain ⟨es, hes, hnames⟩ := exists_elementsFollow (fun s names t => ih) h
      exact ⟨.rest q es, .rest hsign (hplace ▸ hq) hes, hnames⟩
    · obtain ⟨before, s₃, hbefore, h⟩ := bind_eq_ok h
      obtain ⟨q, hq, rfl⟩ := binds_boundElement hpattern s₁ before s₃ hbefore
      obtain ⟨es, hes, hnames⟩ := exists_elementsFollow (fun s names t => ih) h
      exact ⟨.element q es, .element hq hes, hnames⟩

/-- A property is read: whatever properties follow it, it is the first one of them. -/
theorem exists_property (hpattern : Binds (grammar fuel depth).pattern) {rest : Option Bool}
    (h : (grammar fuel depth).boundProperty s = .ok (names, rest) t) {more : Properties} {c : Place}
    (hmore : more.Follows t.place c) :
    ∃ ps : Properties, ps.Reads s.place c ∧ ps.names = names ++ more.names := by
  rcases eatSign_bind_eq_ok h with ⟨hsign, s₁, hplace, h⟩ | ⟨-, h⟩
  · replace h := token_bind_eq_ok h
    obtain ⟨names', s₂, hnames, h⟩ := bind_eq_ok h
    cases h
    obtain ⟨q, hq, rfl⟩ := hpattern s₁ names t hnames
    exact ⟨.rest q more, .rest hsign (hplace ▸ hq) hmore, rfl⟩
  obtain ⟨found, s₁, hkey, h⟩ := bind_eq_ok h
  obtain ⟨hkey, hshort⟩ := propertyName_eq_ok hkey
  have hkeyed {s₂ t' : Reading} {names' : List Name} (hcolon : s₁.place.At ":")
      (hplace : s₂.place = s₁.place.next)
      (hbound : (grammar fuel depth).boundElement s₂ = .ok names' t') (ht : more.Follows t'.place c) :
      ∃ ps : Properties, ps.Reads s.place c ∧ ps.names = names' ++ more.names := by
    obtain ⟨q, hq, rfl⟩ := binds_boundElement hpattern s₂ names' t' hbound
    exact ⟨.keyed q more, .keyed hkey hcolon (hplace ▸ hq) ht, rfl⟩
  cases found with
  | none =>
    obtain ⟨hcolon, s₂, hplace, h⟩ := expectSign_bind_eq_ok h
    obtain ⟨names', s₃, hbound, h⟩ := bind_eq_ok h
    cases h
    exact hkeyed hcolon hplace hbound hmore
  | some n =>
    obtain ⟨hword, hnext⟩ := hshort n rfl
    rcases eatSign_bind_eq_ok h with ⟨hcolon, s₂, hplace, h⟩ | ⟨-, h⟩
    · obtain ⟨names', s₃, hbound, h⟩ := bind_eq_ok h
      cases h
      exact hkeyed hcolon hplace hbound hmore
    rcases eatSign_bind_eq_ok h with ⟨hequals, s₂, hplace, h⟩ | ⟨-, h⟩
    · obtain ⟨_, s₃, hvalue, h⟩ := bind_eq_ok h
      cases h
      have hdefault : s₁.place.next.Default t.place := ⟨fuel, depth, s₂, _, t, hvalue, hplace, rfl⟩
      rw [hnext] at hequals hdefault
      exact ⟨.short n more, .shortWithDefault hword hequals hdefault hmore, rfl⟩
    · rw [if_neg Bool.false_ne_true] at h
      obtain ⟨s₂, hnoted, h⟩ := problemIf_bind_eq_ok h
      cases h
      rw [hnoted, hnext] at hmore
      exact ⟨.short n more, .short hword hmore, rfl⟩

/-- Properties are read up to the closing brace. -/
theorem exists_properties (hpattern : Binds (grammar fuel depth).pattern) {n : Nat}
    (h : (grammar fuel depth).boundProperties n s = .ok names t) :
    ∃ ps : Properties, ps.Reads s.place t.place ∧ ps.names = names := by
  induction n generalizing s names with
  | zero => cases h
  | succ n ih =>
    unfold Grammar.boundProperties at h
    rcases eatSign_bind_eq_ok h with ⟨hclose, s₁, hplace, h⟩ | ⟨-, h⟩
    · cases h
      exact ⟨.nil, hplace ▸ .nil hclose, rfl⟩
    replace h := start_bind_eq_ok h
    obtain ⟨⟨names', rest⟩, s₁, hproperty, h⟩ := bind_eq_ok h
    have hfirst {more : Properties} (hmore : more.Follows s₁.place t.place)
        (hnames : names' ++ more.names = names) :
        ∃ ps : Properties, ps.Reads s.place t.place ∧ ps.names = names := by
      obtain ⟨ps, hreads, hps⟩ := exists_property hpattern hproperty hmore
      exact ⟨ps, hreads, hps.trans hnames⟩
    rcases eatSign_bind_eq_ok h with ⟨hclose, s₂, hplace, h⟩ | ⟨-, h⟩
    · rw [if_pos rfl] at h
      replace h := throwIf_bind_eq_ok h
      cases h
      have hnone : Properties.Follows .nil s₁.place t.place := hplace ▸ .nil hclose
      exact hfirst hnone (List.append_nil _)
    replace h := start_bind_eq_ok h
    obtain ⟨hcomma, s₂, hplace, h⟩ := expectSign_bind_eq_ok h
    rcases eatSign_bind_eq_ok h with ⟨hclose, s₃, hend, h⟩ | ⟨-, h⟩
    · have hfound : names = names' ∧ t.place = s₃.place := by
        cases rest with
        | none =>
          cases h
          exact ⟨rfl, rfl⟩
        | some single =>
          cases single <;> cases h
          exact ⟨rfl, rfl⟩
      obtain ⟨rfl, ht⟩ := hfound
      have hnone : Properties.Reads .nil s₁.place.next t.place := by
        rw [← hplace, ht, hend]
        exact .nil hclose
      exact hfirst (.more hcomma hnone) (List.append_nil _)
    · rw [if_neg Bool.false_ne_true] at h
      obtain ⟨s₃, hnoted, h⟩ := problemIf_bind_eq_ok h
      obtain ⟨names'', s₄, hrest, h⟩ := bind_eq_ok h
      cases h
      obtain ⟨ps, hreads, rfl⟩ := ih hrest
      exact hfirst (.more hcomma (hplace ▸ hnoted ▸ hreads)) rfl

/-- A pattern is read, in a grammar whose nested patterns are read. -/
theorem binds_bindingPattern (hpattern : Binds (grammar fuel depth).pattern) :
    Binds (grammar fuel depth).bindingPattern := by
  intro s names t h
  replace h := token_bind_eq_ok h
  generalize hlexeme : s.token.lexeme = lexeme at h
  have hname (h : (do return [← bindingName] : Reader (List Name)) s = .ok names t) :
      ∃ q : Pattern, q.Reads s.place t.place ∧ q.names = names := by
    obtain ⟨n, s₁, hname, h⟩ := bind_eq_ok h
    cases h
    obtain ⟨hword, hfree, hplace⟩ := bindingName_eq_ok hname
    exact ⟨.name n, hplace ▸ .name hword hfree, rfl⟩
  by_cases harray : lexeme = .sign "["
  · obtain rfl := harray
    obtain ⟨s₁, hplace, h⟩ := bump_bind_eq_ok h
    obtain ⟨es, hreads, hes⟩ := exists_elements hpattern h
    exact ⟨.array es, .array hlexeme (hplace ▸ hreads), hes⟩
  by_cases hobject : lexeme = .sign "\x7b"
  · obtain rfl := hobject
    obtain ⟨s₁, hplace, h⟩ := bump_bind_eq_ok h
    obtain ⟨ps, hreads, hps⟩ := exists_properties hpattern h
    exact ⟨.object ps, .object hlexeme (hplace ▸ hreads), hps⟩
  exact hname (by simpa [harray, hobject] using h)

/-- The names that are read for a pattern are those of a pattern that stands there. -/
theorem binds_pattern (fuel depth : Nat) : Binds (grammar fuel depth).pattern := by
  induction depth with
  | zero =>
    intro s names t h
    cases h
  | succ depth ih => exact fun s names t h => binds_bindingPattern ih s names t h

end Readers

end SingleFile.Script
